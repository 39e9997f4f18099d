import Cssom.Proofs.Reading.LikeParts

/-!
# Rules, read side by side

Rules and style sheets are read alike in contexts that two readings may have (`alike_rule`,
`alike_stylesheet`): they agree up to what is not compared of their properties and of the tokens
they were kept in.
-/

namespace Cssom

open Grammar Production

namespace Likeness

variable (L : Likeness)

/-- Rules that agree up to what is not compared of properties and tokens. -/
def Rules (r s : Rule) : Prop :=
  r.mapParts L.property L.token = s.mapParts L.property L.token

/-- Lists of rules that agree up to what is not compared of properties and tokens. -/
def RuleLists (rs ss : List Rule) : Prop :=
  Rule.mapAll L.property L.token rs = Rule.mapAll L.property L.token ss

/-- Moments of an animation that agree up to what is not compared of properties. -/
def Moments (fs gs : List Keyframe) : Prop :=
  fs.map (·.mapProperties L.property) = gs.map (·.mapProperties L.property)

/-- Tokens of which the same is compared. -/
def Tokens (ts us : List Token) : Prop :=
  ts.map L.token = us.map L.token

variable {L}

/-- Lists of rules that agree still do with a rule more that does. -/
theorem RuleLists.add {rs ss : List Rule} {r? s? : Option Rule} (h : L.RuleLists rs ss)
    (hrule : Option.Rel L.Rules r? s?) : L.RuleLists (rs ++ r?.toList) (ss ++ s?.toList) := by
  have hrules : Rule.mapAll L.property L.token rs = Rule.mapAll L.property L.token ss := h
  rw [RuleLists, Rule.mapAll_append, Rule.mapAll_append, hrules]
  cases hrule with
  | none => rfl
  | some hrule => exact congrArg (_ ++ [·]) hrule

/-- Style sheets agree if their rules do. -/
theorem RuleLists.sheet {rs ss : List Rule} (h : L.RuleLists rs ss) :
    (Stylesheet.mk rs).mapParts L.property L.token =
      (Stylesheet.mk ss).mapParts L.property L.token :=
  congrArg Stylesheet.mk h

/-- Moments that agree still do with a moment more that does. -/
theorem Moments.add {fs gs : List Keyframe} {f? g? : Option Keyframe} (h : L.Moments fs gs)
    (hframe : Option.Rel (fun f g => f.mapProperties L.property = g.mapProperties L.property)
      f? g?) : L.Moments (fs ++ f?.toList) (gs ++ g?.toList) := by
  have hframes : fs.map (·.mapProperties L.property) = gs.map (·.mapProperties L.property) := h
  rw [Moments, List.map_append, List.map_append, hframes]
  cases hframe with
  | none => rfl
  | some hframe => exact congrArg (_ ++ [·]) hframe

/-- Tokens of which the same is compared may be put together. -/
theorem Tokens.append {ts us ts' us' : List Token} (h : L.Tokens ts us) (h' : L.Tokens ts' us') :
    L.Tokens (ts ++ ts') (us ++ us') := by
  have hfirst : ts.map L.token = us.map L.token := h
  have hsecond : ts'.map L.token = us'.map L.token := h'
  rw [Tokens, List.map_append, List.map_append, hfirst, hsecond]

end Likeness

namespace Grammar

open Production.Alike

variable {L : Likeness} {ctx ctx' : Context}

/-! ### Statements -/

/-- Addresses in quotes are read alike. -/
theorem alike_quotedLocation : Alike L Eq quotedLocation quotedLocation :=
  .view fun _ _ _ _ => .ite .rfl
    (.skip (.kind fun _ => .ite .rfl (.skip (.pure rfl))
      (.bindEq (alike_passArguments _) fun _ => .pure rfl)))
    (.bindEq (alike_passArguments _) fun _ => .pure rfl)

/-- Addresses are read alike. -/
theorem alike_location : Alike L Eq location location := by
  refine .view fun v place next _ => ?_
  simp only [View.kind_elsewhere]
  split
  · exact .skip (.pure rfl)
  · exact .skip (.pure rfl)
  · exact .ite .rfl (.skip alike_quotedLocation) (.pure rfl)
  · exact .pure rfl

/-- Statements that are passed over give nothing, alike. -/
theorem alike_abandonStatement :
    Alike L (Option.Rel L.Rules) abandonStatement abandonStatement :=
  .bindEq (.complainOf fun _ => rfl) fun _ => .bindEq alike_passStatement fun _ => .pure .none

/-- The media of imports are read alike. -/
theorem alike_importMedia (h : L.Contexts ctx ctx') :
    Alike L Eq (importMedia ctx) (importMedia ctx') := by
  refine .kind fun k => ?_
  split
  · exact .pure rfl
  · exact .pure rfl
  · exact alike_mediaList h _

/-- Imports are read alike. -/
theorem alike_importStatement (h : L.Contexts ctx ctx') :
    Alike L (Option.Rel L.Rules) (importStatement ctx) (importStatement ctx') := by
  refine .bindEq alike_location fun href => ?_
  split
  · exact alike_abandonStatement
  · exact .bindEq (alike_importMedia h) fun _ => .bindEq alike_passStatement fun _ =>
      .pure (.some rfl)

/-- Encodings are read alike. -/
theorem alike_charsetStatement :
    Alike L (Option.Rel L.Rules) charsetStatement charsetStatement :=
  .view fun _ _ _ _ => .ite .rfl (.skip (.bindEq alike_passStatement fun _ => .pure (.some rfl)))
    alike_abandonStatement

/-- The labels of namespaces are read alike. -/
theorem alike_namespaceLabel : Alike L Eq namespaceLabel namespaceLabel := by
  have htext : Alike L Eq (Token.text <$> take) (Token.text <$> take) :=
    .take fun _ _ _ => .pure rfl
  exact .view fun _ _ _ _ => .ite .rfl (.map htext fun _ _ h => congrArg some h) (.pure rfl)

/-- Namespaces are read alike. -/
theorem alike_namespaceStatement :
    Alike L (Option.Rel L.Rules) namespaceStatement namespaceStatement := by
  rw [namespaceStatement_eq]
  refine .bindEq alike_namespaceLabel fun label => .bindEq alike_location fun uri => ?_
  split
  · exact alike_abandonStatement
  · exact .bindEq alike_passStatement fun _ => .pure (.some rfl)

/-! ### Rules of declarations -/

section

variable (h : L.Contexts ctx ctx')
include h

/-- Blocks are read alike behind what was valid or not, if that is reported alike. -/
theorem alike_checkedBlock {α : Type} {R : α → α → Prop} (valid : Bool) {cause : Cause}
    (hcause : L.leavesOut cause = false) {a b : Position} (hposition : L.position a b)
    {make : Block → α} (hmake : ∀ b c, L.Blocks b c → R (make b) (make c)) :
    Alike L (Option.Rel R) (checkedBlock ctx valid cause a make)
      (checkedBlock ctx' valid cause b make) := by
  have hused : Alike L (Option.Rel R) (blockIf ctx valid make) (blockIf ctx' valid make) := by
    refine .bind (alike_declarationBlock h _) fun b? c? hblock => ?_
    cases hblock with
    | none => exact .pure .none
    | some hblock =>
      refine .pure ?_
      split
      · exact .some (hmake _ _ hblock)
      · exact .none
  exact .ite .rfl (.bindEq (.complainAt hcause hposition) fun _ => hused) hused

/-- Style rules are read alike. -/
theorem alike_styleRule : Alike L (Option.Rel L.Rules) (styleRule ctx) (styleRule ctx') := by
  rw [styleRule_eq, styleRule_eq]
  exact .view fun _ _ _ hsees => .bindEq alike_selectorList fun parsed =>
    alike_checkedBlock h _ rfl hsees.position fun _ _ hblock =>
      congrArg (Rule.style parsed.list) hblock

/-- Rules that are a block of declarations are read alike. -/
theorem alike_blockRule (set : BlockKind) {make : Block → Rule}
    (hmake : ∀ b c, L.Blocks b c → L.Rules (make b) (make c)) :
    Alike L (Option.Rel L.Rules) (blockRule ctx set make) (blockRule ctx' set make) := by
  refine .bind (alike_declarationBlock h set) fun b? c? hblock => .pure ?_
  cases hblock with
  | none => exact .none
  | some hblock => exact .some (hmake _ _ hblock)

/-- Page rules are read alike. -/
theorem alike_pageRule : Alike L (Option.Rel L.Rules) (pageRule ctx) (pageRule ctx') := by
  refine .view fun v _ _ _ => .bindEq ?_ fun selector => ?_
  · exact roundsEq (f := pageSelectorFrom) (g := pageSelectorFrom) (fun _ => .pure rfl)
      (fun _ ih _ => .view fun _ _ _ _ => .ite .rfl (.pure rfl) (.skip (ih _))) v.size ""
  · exact alike_blockRule h _ fun _ _ hblock => congrArg (Rule.page _) hblock

end

/-! ### Rules of unknown names -/

/-- Tokens are kept alike. -/
theorem alike_keepToken (keepSpace : Bool) :
    Alike L L.Tokens (keepToken keepSpace) (keepToken keepSpace) := by
  refine .view fun v place _ hsees => .skip (.pure ?_)
  have hspace : L.token ⟨.whitespace, " ", v.token.span⟩ = L.token ⟨.whitespace, " ", place⟩ :=
    L.token_eq _ _ hsees.span
  have htoken : L.token v.token = L.token { v.token with span := place } :=
    L.token_eq v.token.kind v.token.text hsees.span
  refine Likeness.Tokens.append ?_ (congrArg ([·]) htoken)
  change L.Tokens _ (if keepSpace && v.spacing.isOpen then [⟨.whitespace, " ", place⟩] else [])
  split
  · exact congrArg ([·]) hspace
  · rfl

/-- What stands before the block of an unknown rule is kept alike. -/
theorem alike_unknownPreambleFrom (rounds : Nat) {kept kept' : List Token}
    (h : L.Tokens kept kept') :
    Alike L L.Tokens (unknownPreambleFrom rounds kept) (unknownPreambleFrom rounds kept') := by
  refine Alike.rounds (f := unknownPreambleFrom) (g := unknownPreambleFrom)
    (fun _ _ h => .pure h) (fun k ih kept kept' h => ?_) rounds h
  refine .view fun v place next hsees => .ite .rfl (.pure h) ?_
  have hempty : (kept'.map L.token).isEmpty = (kept.map L.token).isEmpty :=
    congrArg List.isEmpty (Eq.symm h)
  rw [List.isEmpty_map, List.isEmpty_map] at hempty
  rw [hempty]
  exact .bind (alike_keepToken _) fun _ _ htokens => ih _ _ (h.append htokens)

/-- What stands in the block of an unknown rule is kept alike. -/
theorem alike_unknownBlockFrom (rounds depth : Nat) {kept kept' : List Token}
    (h : L.Tokens kept kept') : Alike L L.Tokens (unknownBlockFrom rounds depth kept)
      (unknownBlockFrom rounds depth kept') := by
  induction rounds generalizing depth kept kept' with
  | zero => exact .pure h
  | succ rounds ih =>
    refine .view fun v place next hsees => .ite .rfl (.pure h) ?_
    refine .bind (alike_keepToken _) fun _ _ htokens => ?_
    exact .ite .rfl (.pure (h.append htokens)) (ih _ (h.append htokens))

/-- The blocks of unknown rules are kept alike. -/
theorem alike_unknownBlock : Alike L (Option.Rel L.Tokens) unknownBlock unknownBlock := by
  refine .view fun v place next hsees => ?_
  simp only [View.kind_elsewhere]
  split
  · exact .skip (.bind (alike_unknownBlockFrom v.size 1 rfl) fun _ _ h => .pure (.some h))
  · exact .skip (.pure .none)
  · exact .pure .none

/-- Unknown rules are read alike, whether they are kept or reported. -/
theorem alike_unknownRule (h : L.Contexts ctx ctx') (name : String) {a b : Position}
    (hposition : L.position a b) :
    Alike L (Option.Rel L.Rules) (unknownRule ctx name a) (unknownRule ctx' name b) := by
  unfold unknownRule
  rw [h.keepUnknownRules]
  refine .ite .rfl ?_ ?_
  · refine .view fun v _ _ _ => .bind (alike_unknownPreambleFrom v.size rfl) fun ts us hpreamble =>
      .bind alike_unknownBlock fun b? c? hblock => .pure (.some ?_)
    have hpreamble : ts.map L.token = us.map L.token := hpreamble
    have hblock : b?.map (·.map L.token) = c?.map (·.map L.token) := by
      cases hblock with
      | none => rfl
      | some hblock => exact congrArg some hblock
    rw [Likeness.Rules, Rule.mapParts, Rule.mapParts, UnknownRule.mapTokens, UnknownRule.mapTokens,
      hpreamble, hblock]
  · exact .bindEq (.complainAt rfl hposition) fun _ => .bindEq alike_passRule fun _ => .pure .none

/-! ### Animations -/

/-- The names of animations are read alike. -/
theorem alike_animationName : Alike L Eq animationName animationName := by
  refine .view fun v place next _ => ?_
  simp only [View.kind_elsewhere]
  split
  · exact .skip (.pure rfl)
  · exact .skip (.pure rfl)
  · exact .pure rfl

section

variable (h : L.Contexts ctx ctx')
include h

/-- Moments of an animation are read alike. -/
theorem alike_keyframe : Alike L
    (Option.Rel fun f g => f.mapProperties L.property = g.mapProperties L.property)
    (keyframe ctx) (keyframe ctx') := by
  rw [keyframe_eq, keyframe_eq]
  refine .inFrame (.view fun v _ _ hsees => .bindEq ?_ fun reading => ?_) _ _
  · exact roundsEq (f := keysFrom) (g := keysFrom) (fun _ => .pure rfl)
      (fun _ ih _ => .view fun _ _ _ _ => .ite .rfl (.pure rfl) (.skip (ih _))) v.size .start
  · exact alike_checkedBlock h _ rfl hsees.position fun _ _ hblock =>
      congrArg (Keyframe.mk reading.keys) hblock

/-- The moments of animations are read alike. -/
theorem alike_keyframes : Alike L L.Moments (keyframes ctx) (keyframes ctx') := by
  refine .view fun v _ _ _ => rounds (f := keyframesFrom ctx) (g := keyframesFrom ctx')
    (fun _ _ hframes => .pure hframes) (fun k ih fs gs hframes => ?_) v.size rfl
  refine .view fun v place next hsees => ?_
  simp only [View.kind_elsewhere]
  split
  · exact .pure hframes
  · exact .pure hframes
  · next heof =>
    refine .bind (alike_keyframe h) fun f? g? hframe => ?_
    exact .bindEq (.passIfStuck (hsees.offset_of_kind heof)) fun _ => ih _ _ (hframes.add hframe)

/-- Animations are read alike. -/
theorem alike_keyframesRule :
    Alike L (Option.Rel L.Rules) (keyframesRule ctx) (keyframesRule ctx') := by
  refine .bindEq alike_animationName fun name => ?_
  split
  · exact .bindEq (.complainOf fun _ => rfl) fun _ => .bindEq alike_passRule fun _ => .pure .none
  · refine .bindEq alike_blockOpening fun _ => .ite .rfl ?_ (.pure .none)
    exact .bind (alike_keyframes h) fun _ _ hframes =>
      .bindEq alike_blockClosing fun _ => .pure (.some (congrArg (Rule.keyframes _) hframes))

end

/-! ### Documents -/

/-- The arguments of functions that name documents are read alike. -/
theorem alike_documentArgument (kind? : Option DocumentFunction.Kind) :
    Alike L Eq (documentArgument kind?) (documentArgument kind?) := by
  have hcontents : Alike L Eq (Token.contents <$> take) (Token.contents <$> take) :=
    .take fun _ _ _ => .pure rfl
  have hstring : Alike L Eq documentString documentString :=
    .view fun _ _ _ _ => .ite .rfl (.map hcontents fun _ _ h => congrArg some h) (.pure rfl)
  rw [documentArgument_eq]
  refine .bindEq hstring fun argument => .kind fun k => ?_
  split
  · exact .skip (.pure rfl)
  · exact .bindEq (alike_passArguments _) fun _ => .pure rfl

/-- Functions that name documents are read alike. -/
theorem alike_documentFunction : Alike L Eq documentFunction documentFunction := by
  refine .view fun v place next _ => ?_
  simp only [View.kind_elsewhere]
  split
  · exact .skip (.pure rfl)
  · exact .skip (alike_documentArgument _)
  · exact .pure rfl

/-- Lists of functions that name documents are read alike. -/
theorem alike_documentFunctionsFrom (rounds : Nat) (functions : List DocumentFunction) :
    Alike L Eq (documentFunctionsFrom rounds functions)
      (documentFunctionsFrom rounds functions) := by
  refine roundsEq (f := documentFunctionsFrom) (g := documentFunctionsFrom) (fun _ => .pure rfl)
    (fun k ih functions => .bindEq alike_documentFunction fun function => ?_) rounds functions
  split
  · exact .pure rfl
  · exact .kind fun _ => .ite .rfl (.skip (ih _)) (.pure rfl)

/-! ### Rules with rules inside -/

section

variable {p q : Production (Option Rule)} (hrule : Alike L (Option.Rel L.Rules) p q)
include hrule

/-- The rules of a block are read alike if rules are. -/
theorem alike_rulesOf : Alike L L.RuleLists (rulesOf p) (rulesOf q) := by
  refine .view fun v _ _ _ => rounds (f := rulesFrom p) (g := rulesFrom q)
    (fun _ _ hrules => .pure hrules) (fun k ih rs ss hrules => ?_) v.size rfl
  refine .view fun v place next hsees => ?_
  simp only [View.kind_elsewhere]
  split
  · exact .pure hrules
  · exact .pure hrules
  · next heof =>
    refine .bind hrule fun r? s? hparsed => ?_
    exact .bindEq (.passIfStuck (hsees.offset_of_kind heof)) fun _ => ih _ _ (hrules.add hparsed)

/-- Blocks of rules are read alike if rules are. -/
theorem alike_ruleBlock : Alike L (Option.Rel L.RuleLists) (ruleBlock p) (ruleBlock q) :=
  .bindEq alike_blockOpening fun _ => .ite .rfl
    (.bind (alike_rulesOf hrule) fun _ _ hrules =>
      .bindEq alike_blockClosing fun _ => .pure (.some hrules))
    (.pure .none)

/-- Rules for media are read alike if rules are. -/
theorem alike_mediaRule (h : L.Contexts ctx ctx') :
    Alike L (Option.Rel L.Rules) (mediaRule ctx p) (mediaRule ctx' q) := by
  refine .bindEq (alike_mediaPrelude h) fun media => .view fun v place next _ => ?_
  simp only [View.kind_elsewhere]
  split
  · exact .skip (.bind (alike_rulesOf hrule) fun _ _ hrules =>
      .bindEq alike_blockClosing fun _ => .pure (.some (congrArg (Rule.media media) hrules)))
  · exact .bindEq (.complain rfl) fun _ => .skip (.pure .none)
  · exact .bindEq (.complainOf fun _ => rfl) fun _ => .pure (.some rfl)

/-- A rule made of what stands before its block, and the rules in the block. -/
theorem alike_grouping {make make' : List Rule → Rule}
    (hmake : ∀ rs ss, L.RuleLists rs ss → L.Rules (make rs) (make' ss)) :
    Alike L (Option.Rel L.Rules) (do return (← ruleBlock p).map make)
      (do return (← ruleBlock q).map make') := by
  refine .bind (alike_ruleBlock hrule) fun rs? ss? hrules => .pure ?_
  cases hrules with
  | none => exact .none
  | some hrules => exact .some (hmake _ _ hrules)

/-- Rules with a condition are read alike if rules are. -/
theorem alike_supportsRule (h : L.Contexts ctx ctx') :
    Alike L (Option.Rel L.Rules) (supportsRule ctx p) (supportsRule ctx' q) := by
  refine .bind (alike_supportsCondition h) fun c? d? hcondition => ?_
  cases hcondition with
  | none =>
    exact .bindEq (.complainOf fun _ => rfl) fun _ => .bindEq alike_passRule fun _ => .pure .none
  | @some c d hcondition =>
    refine alike_grouping hrule fun rs ss hrules => ?_
    have hcondition : c.mapProperties L.property = d.mapProperties L.property := hcondition
    rw [Likeness.Rules, Rule.mapParts, Rule.mapParts, hcondition]
    exact congrArg _ hrules

/-- Rules for documents are read alike if rules are. -/
theorem alike_documentRule :
    Alike L (Option.Rel L.Rules) (documentRule p) (documentRule q) := by
  refine .view fun v _ _ _ => .bindEq (alike_documentFunctionsFrom (v.size + 1) [])
    fun functions => ?_
  split
  · exact .bindEq (.complainOf fun _ => rfl) fun _ => .bindEq alike_passRule fun _ => .pure .none
  · exact alike_grouping hrule fun _ _ hrules => congrArg (Rule.document _) hrules

end

/-! ### Rules -/

section

variable (h : L.Contexts ctx ctx')
include h

/-- At-rules are read alike if rules are. -/
theorem alike_atRule {p q : Production (Option Rule)} (hrule : Alike L (Option.Rel L.Rules) p q) :
    Alike L (Option.Rel L.Rules) (atRule ctx p) (atRule ctx' q) := by
  refine .take fun keyword place hspan => ?_
  have hname : Token.name { keyword with span := place } = keyword.name := rfl
  rw [hname]
  cases AtKeyword.ofName keyword.name with
  | media => exact alike_mediaRule hrule h
  | fontFace => exact alike_blockRule h _ fun _ _ hblock => congrArg Rule.fontFace hblock
  | keyframes => exact alike_keyframesRule h
  | importRule => exact alike_importStatement h
  | charset => exact alike_charsetStatement
  | namespaceRule => exact alike_namespaceStatement
  | page => exact alike_pageRule h
  | supports => exact alike_supportsRule hrule h
  | viewport => exact alike_blockRule h _ fun _ _ hblock => congrArg Rule.viewport hblock
  | document => exact alike_documentRule hrule
  | unknown => exact alike_unknownRule h _ (L.position_start hspan)

/-- What any token starts is read alike if rules are. -/
theorem alike_ruleStarting {p q : Production (Option Rule)}
    (hrule : Alike L (Option.Rel L.Rules) p q) (kind : Token.Kind) :
    Alike L (Option.Rel L.Rules) (ruleStarting ctx p kind) (ruleStarting ctx' q kind) := by
  have habandon {cause : String → Cause} (hkept : ∀ text, L.leavesOut (cause text) = false) :
      Alike L (Option.Rel L.Rules) (abandonRule cause) (abandonRule cause) :=
    .bindEq (.complainOf hkept) fun _ => .bindEq alike_passRule fun _ => .pure .none
  unfold ruleStarting
  split
  · exact .pure .none
  · exact alike_atRule h hrule
  all_goals first | exact habandon fun _ => rfl | exact alike_styleRule h

/-- Rules are read alike, to any depth. -/
theorem alike_ruleWithin (depth : Nat) :
    Alike L (Option.Rel L.Rules) (ruleWithin ctx depth) (ruleWithin ctx' depth) := by
  induction depth with
  | zero => exact .pure .none
  | succ depth ih =>
    refine .inFrame (.view fun v place next _ => ?_) _ _
    exact alike_ruleStarting h ih v.kind

/-- Rules are read alike. -/
theorem alike_rule : Alike L (Option.Rel L.Rules) (rule ctx) (rule ctx') :=
  .view fun v _ _ _ => alike_ruleWithin h (v.size + 1)

/-- A style sheet is read alike, up to what is not compared. -/
theorem alike_stylesheet : Alike L
    (fun s t => s.mapParts L.property L.token = t.mapParts L.property L.token)
    (stylesheet ctx) (stylesheet ctx') := by
  refine .view fun v _ _ _ => rounds (f := stylesheetFrom ctx) (g := stylesheetFrom ctx')
    (T := L.RuleLists) (fun _ _ hrules => .pure hrules.sheet)
    (fun k ih rs ss hrules => ?_) v.size rfl
  refine .view fun v place next hsees => ?_
  by_cases hend : v.atEnd = true
  · have hend' : (v.elsewhere place next).atEnd = true := hend
    rw [if_pos hend, if_pos hend']
    exact .pure hrules.sheet
  · have hend' : ¬(v.elsewhere place next).atEnd = true := hend
    rw [if_neg hend, if_neg hend']
    refine .bind (alike_rule h) fun r? s? hparsed => ?_
    have hoffset := hsees.offset (Bool.not_eq_true _ ▸ hend)
    exact .bindEq (.passIfStuck hoffset) fun _ => ih _ _ (hrules.add hparsed)

end

end Grammar

end Cssom
