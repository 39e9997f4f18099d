import Cssom.Proofs.Reading.Cut
import Cssom.Proofs.Reading.Endings

/-!
# The parts of rules on inputs that are cut short

Every production of a rule follows itself on an input that is cut short. Loops are given fewer
rounds there, and conditions and rules may go less deep; both are as many as there are tokens. One
production looks beyond the token under the cursor: a condition that starts with `not`. Where the
cut hides what stands after that word, both of its ways take the last token there is.
-/

namespace Cssom.Grammar

open Production Production.Follows

variable {cut : List Lexeme} {m n : Nat} {ctx : Context}

/-! ### Passing over -/

/-- On a short input as much of a rule is passed over as is there. -/
theorem follows_passRule : Follows cut m n passRule passRule :=
  .sized fun _ _ _ _ _ => rounds (f := passRuleFrom) (fun _ _ ih _ => .view fun _ _ _ =>
    .ite (.pure _) (.skip (.ite (.pure _) (ih _)))) 0

/-- On a short input as much of a statement is passed over as is there. -/
theorem follows_passStatement : Follows cut m n passStatement passStatement :=
  .sized fun _ _ _ _ _ => rounds (f := fun k (_ : Unit) => passStatementFrom k)
    (fun _ _ ih _ => .view fun _ _ _ =>
      .ite (.pure _) (.skip (.ite (.pure _) (ih ())))) ()

/-- On a short input as much of a declaration is passed over as is there. -/
theorem follows_passDeclaration : Follows cut m n passDeclaration passDeclaration :=
  .sized fun _ _ _ _ _ => rounds (f := passDeclarationFrom)
    (fun _ _ ih _ => .view fun _ _ _ => .ite (.pure _) (.skip (ih _))) 0

/-- On a short input as much of the arguments of a function is passed over as is there. -/
theorem follows_passArguments (depth : Nat) :
    Follows cut m n (passArguments depth) (passArguments depth) :=
  .sized fun _ _ _ _ _ => rounds (f := passArgumentsFrom)
    (fun _ _ ih _ => .view fun _ _ _ => .ite (.pure _) (.skip (ih _))) depth

/-- On a short input as much of a media list is passed over as is there. -/
theorem follows_passMedia (terminator : Token.Kind) :
    Follows cut m n (passMedia terminator) (passMedia terminator) :=
  .sized fun _ _ _ _ _ => rounds (f := passMediaFrom terminator)
    (fun _ _ ih _ => .view fun _ _ _ => .ite (.pure _) (.skip (ih _))) 0

/-! ### Selectors and values -/

/-- A selector list follows itself. -/
theorem follows_selectorList : Follows cut m n selectorList selectorList :=
  .enclosed (.sized fun _ _ _ _ _ => .bind (rounds (f := selectorsFrom)
    (fun _ _ ih _ => .view fun _ _ _ => .ite (.pure _) (.skip (ih _))) _)
      fun _ => .pure _) _

/-- A value that was begun follows itself, given as many rounds as tokens. -/
theorem follows_valueFrom (terminators : List Token.Kind) (reading : ValueReading) :
    Follows cut m n (valueFrom terminators m reading) (valueFrom terminators n reading) := by
  refine rounds (f := valueFrom terminators) (fun _ _ ih reading => ?_) reading
  refine .view fun v _ _ => .ite (.pure _) (.ite ?_ ?_)
  · simp only [takeImportance, LawfulMonad.bind_assoc]
    refine .skip (.view fun w _ _ => ?_)
    exact .bind (.ite (.skip (.pure _)) (.pure _)) fun _ => ih _
  · simp only [takeValueToken, LawfulMonad.bind_assoc]
    refine .view fun w _ _ => .skip (.bind ?_ fun _ => ih _)
    exact .ite (.bind (follows_passArguments _) fun _ => .pure _) (.pure _)

/-- A value follows itself. -/
theorem follows_value (terminators : List Token.Kind) :
    Follows cut m n (value terminators) (value terminators) :=
  .enclosed (.sized fun _ _ _ _ _ => .bind (follows_valueFrom _ _) fun _ => .pure _) _

/-! ### Declarations -/

/-- The name of a declaration follows itself. -/
theorem follows_declarationName : Follows cut m n declarationName declarationName :=
  .sized fun _ _ _ _ _ => rounds (f := nameFrom)
    (fun _ _ ih _ => .view fun _ _ _ => .ite (.pure _) (.skip (ih _))) ""

/-- To look up a property reads nothing, and follows itself. -/
theorem follows_property (set : BlockKind) (name : String) (position : Position) :
    Follows cut m n (property ctx set name position) (property ctx set name position) := by
  refine .ite (.pure _) ?_
  split
  · exact .pure _
  · exact .bind (.complainAt _ _) fun _ => .pure _

/-- A declaration that is passed over follows itself. -/
theorem follows_abandonDeclaration : Follows cut m n abandonDeclaration abandonDeclaration :=
  .bind follows_passDeclaration fun _ => .bind (.skipIf _) fun _ => .pure _

/-- The value of a declaration follows itself. -/
theorem follows_declarationValue (name : String) (property : Property) :
    Follows cut m n (declarationValue ctx name property) (declarationValue ctx name property) := by
  refine .bind (follows_value _) fun parsed => ?_
  split
  · exact .bind (.complain _) fun _ => follows_abandonDeclaration
  · exact .ite (.bind (.complain _) fun _ => follows_abandonDeclaration)
      (.bind (.skipIf _) fun _ => .pure _)

/-- A declaration follows itself. -/
theorem follows_declaration (set : BlockKind) :
    Follows cut m n (declaration ctx set) (declaration ctx set) := by
  refine .inFrame (.view fun start _ _ => .bind follows_declarationName fun name => ?_) _
  refine .ite (.view fun v _ _ => ?_) (.bind (follows_property _ _ _) fun property => ?_)
  · exact .ite (.bind (.complainOf _) fun _ => follows_abandonDeclaration)
      follows_abandonDeclaration
  · exact .view fun _ _ _ => .ite (.skip (follows_declarationValue _ _))
      (.bind (.complain _) fun _ => follows_abandonDeclaration)

/-- What a loop does with a part that takes a token, the guard after it included. -/
theorem follows_part {α β : Type} {part : Production (Option α)} {f g : Option α → Production β}
    (hpart : Follows cut m n part part) {i j : Input} (hcut : i.CutAt cut j) (hi : i.size ≤ m)
    (hj : j.size ≤ n) (hadvances : part.Advances (.ofInput i false)) (before : UInt32)
    (hf : ∀ a, Follows cut (m - 1) (n - 1) (f a) (g a)) :
    ((do let a ← part; passIfStuck before; f a : Production β).read i).Follows cut
      ((do let a ← part; passIfStuck before; g a : Production β).read j) :=
  hpart.after_part hcut hi hj (size_read_lt hadvances) fun _ =>
    .bind (.passIfStuck before) fun _ => hf _

/-- Where the end is not under the cursor there is a token. -/
theorem hasTokens_of_kind_ne {i : Input} (h : i.view.kind ≠ .eof) :
    (Parser.ofInput i false).hasTokens = true := by
  rw [ne_eq, i.kind_view_eq_eof_iff] at h
  simpa [Parser.hasTokens_eq, Parser.ofInput, Parser.recordFetched, Input.hasTokens] using h

/-- The declarations of a block follow themselves. -/
theorem follows_declarations (set : BlockKind) (block : Block) :
    Follows cut m n (declarations ctx set block) (declarations ctx set block) := by
  refine .sized fun v _ size _ _ => rounds (f := declarationsFrom ctx set) ?_ block
  intro k l ih block
  refine .seeing fun i j hcut _ hi hj => ?_
  simp only [View.kind_with]
  split
  · exact Follows.pure _ i j hcut hi hj
  · exact Follows.pure _ i j hcut hi hj
  · exact Follows.skip (ih block) i j hcut hi hj
  · next hclose heof hsemicolon =>
    refine follows_part (follows_declaration set) hcut hi hj ?_ _ fun _ => ih _
    refine advances_declaration set (hasTokens_of_kind_ne heof) ?_
    exact Bool.or_eq_false_iff.2 ⟨beq_false_of_ne hsemicolon, beq_false_of_ne hclose⟩

/-- The opening brace of a block follows itself. -/
theorem follows_blockOpening : Follows cut m n blockOpening blockOpening :=
  .kind fun _ => .ite (.skip (.pure _))
    (.bind (.complainOf _) fun _ => .bind follows_passRule fun _ => .pure _)

/-- The closing brace of a block follows itself. -/
theorem follows_blockClosing : Follows cut m n blockClosing blockClosing :=
  .skipIf _

/-- A block of declarations follows itself. -/
theorem follows_declarationBlock (set : BlockKind) :
    Follows cut m n (declarationBlock ctx set) (declarationBlock ctx set) :=
  .bind follows_blockOpening fun _ => .ite
    (.bind (follows_declarations _ _) fun _ => .bind follows_blockClosing fun _ => .pure _)
    (.pure _)

/-! ### Media -/

/-- A feature follows itself. -/
theorem follows_feature : Follows cut m n (feature ctx) (feature ctx) := by
  refine .inFrame (.kind fun _ => .ite (.pure _) (.skip (.kind fun _ => ?_))) _
  refine .ite (.pure _) (.take fun name => ?_)
  split
  · exact .pure _
  refine .bind ?_ fun whole => ?_
  · refine .kind fun _ => .ite (.skip (.bind (follows_value _) fun _ => ?_)) (.pure _)
    exact .ite (.pure _) (.pure _)
  split
  · exact .pure _
  · exact .kind fun _ => .ite (.skip (.pure _)) (.pure _)

/-- The features of a medium follow themselves. -/
theorem follows_features (medium : Medium) :
    Follows cut m n (features ctx medium) (features ctx medium) := by
  refine .sized fun _ _ _ _ _ => rounds (f := featuresFrom ctx) ?_ medium
  intro k l ih medium
  refine .view fun _ _ _ => .ite (.skip (.bind follows_feature fun next => ?_)) (.pure _)
  split
  · exact .pure _
  · exact ih _

/-- A medium follows itself. -/
theorem follows_medium : Follows cut m n (medium ctx) (medium ctx) := by
  have htyped {m n : Nat} (reversed guarded : Bool) :
      Follows cut m n (typedMedium ctx reversed guarded) (typedMedium ctx reversed guarded) :=
    .view fun _ _ _ => .ite (.pure _) (.skip (follows_features _))
  refine .inFrame (.view fun v next size => ?_) _
  simp only [View.kind_with]
  split
  · exact .ite (.skip (htyped _ _)) (.ite (.skip (htyped _ _)) (htyped _ _))
  · refine .bind follows_feature fun first => ?_
    split
    · exact .pure _
    · exact follows_features _
  · exact .pure _

/-- What ends a media list follows itself. -/
theorem follows_mediaListEnd (terminator : Token.Kind) (media? : Option (List Medium)) :
    Follows cut m n (mediaListEnd terminator media?) (mediaListEnd terminator media?) := by
  cases media? with
  | some media => exact .pure _
  | none => exact .bind (follows_passMedia _) fun _ => .pure _

/-- A media list follows itself. -/
theorem follows_mediaList (terminator : Token.Kind) :
    Follows cut m n (mediaList ctx terminator) (mediaList ctx terminator) := by
  rw [mediaList_eq]
  refine .enclosed (.sized fun v next size _ _ => .bind ?_ fun media => ?_) _
  · refine rounds (f := fun k => mediaFrom ctx (k + 1)) ?_ []
    intro k l ih media
    refine .bind follows_medium fun next => ?_
    split
    · exact .pure _
    · exact .kind fun _ => .ite (.skip (ih _)) (.pure _)
  · exact view (f := fun v => mediaListEnd terminator (if v.kind = terminator then media else none))
      (g := fun v => mediaListEnd terminator (if v.kind = terminator then media else none))
      fun _ _ _ => follows_mediaListEnd _ _

/-- The media before a block follow themselves. -/
theorem follows_mediaPrelude : Follows cut m n (mediaPrelude ctx) (mediaPrelude ctx) :=
  .kind fun _ => .ite (.pure _) (follows_mediaList _)

/-! ### Conditions -/

/-- A declaration in a condition follows itself. -/
theorem follows_declarationCondition :
    Follows cut m n (declarationCondition ctx) (declarationCondition ctx) := by
  refine .take fun name => .kind fun _ => .ite (.pure _) (.skip ?_)
  refine .bind (follows_value _) fun parsed => ?_
  split
  · exact .pure _
  · exact .ite (.pure _) (.pure _)

/-- A chain follows another if its parts follow those of the other. -/
theorem follows_chainOf {operand operand' : Production (Option Condition)}
    (h : Follows cut m n operand operand') :
    Follows cut m n (chainOf operand) (chainOf operand') := by
  refine .inFrame (.bind h fun first => ?_) _
  split
  · exact .pure _
  next first =>
    refine .sized fun v next size hm hn => ?_
    dsimp only
    split
    · exact .pure _
    next connector =>
      refine loops (fun k l hk hl ih parts => ?_) [first]
      refine .view fun w _ _ => .ite (.skip (.bind (h.mono ?_ ?_) fun part => ?_)) (.pure _)
      · exact Nat.le_trans (Nat.le_of_lt hk) hm
      · exact Nat.le_trans (Nat.le_of_lt hl) hn
      split
      · exact .pure _
      · exact ih _

/-- Reads a part of a chain that starts with a word. -/
def wordOperand (ctx : Context) (depth : Nat) (v : View) : Production (Option Condition) :=
  if startsNegation v then do
    skip
    match ← operandWithin ctx depth with
    | none => pure none
    | some inner => pure (some (.negation inner))
  else declarationCondition ctx

/-- A word at the start of a part of a chain is taken, whatever stands after it. -/
theorem reaches_wordOperand (depth : Nat) (v : View) (input : Input) :
    input.advance.Reaches ((wordOperand ctx depth v).read input).rest := by
  unfold wordOperand
  split
  · exact read_reaches _ input.advance
  · exact read_reaches _ input.advance

/-- A part of a chain looks beyond the token under the cursor. If that is the last one before the
cut, it is taken whatever is seen. -/
theorem follows_operandWithin (ctx : Context) (m n : Nat) :
    Follows cut m n (operandWithin ctx (m + 1)) (operandWithin ctx (n + 1)) := by
  refine rounds (f := fun k (_ : Unit) => operandWithin ctx (k + 1)) (fun k l ih _ => ?_) ()
  refine .inFrame (.seeing fun i j hcut hend hi hj => ?_) _
  simp only [View.kind_with]
  split
  · refine Follows.skip (.bind (follows_chainOf (ih ())) fun inner => ?_) i j hcut hi hj
    split
    · exact .pure _
    · exact .bind (.skipIf _) fun _ => .pure _
  · change ((wordOperand ctx (k + 1) i.view).read i).Follows cut
      ((wordOperand ctx (l + 1) { i.view with next := j.next, size := j.size }).read j)
    obtain ⟨word, _ | ⟨next, rest⟩, hahead⟩ := List.exists_cons_of_ne_nil hend
    · -- What `i` sees next is beyond the cut.
      have hsize : i.size ≤ cut.length + 1 := by
        refine Nat.le_of_eq ?_
        rw [hcut.size_eq, j.size_eq, hahead, List.length_singleton, Nat.add_comm]
      have htail : j.advance.ahead = [] := by rw [Input.ahead_advance, hahead, List.tail_cons]
      have hlt := hcut.lt_size_iff.2 hend
      refine follows_of_last hsize ?_ ?_
      · refine Nat.lt_of_le_of_lt (reaches_wordOperand _ _ i).size_le ?_
        exact Nat.sub_lt (by omega) Nat.one_pos
      · exact List.eq_nil_of_suffix_nil (htail ▸ (reaches_wordOperand _ _ j).suffix)
    · have hnext : i.next = j.next := by
        simp only [Input.next, show i.ahead = j.ahead ++ cut from hcut, hahead, List.cons_append]
      have hsame : startsNegation { i.view with next := j.next, size := j.size } =
          startsNegation i.view := by rw [← hnext]; rfl
      unfold wordOperand
      rw [hsame]
      refine Follows.ite (.skip (.bind (ih ()) fun inner => ?_)) follows_declarationCondition
        i j hcut hi hj
      split <;> exact .pure _
  · exact Follows.pure _ i j hcut hi hj

/-- The condition before a block follows itself. -/
theorem follows_supportsCondition :
    Follows cut m n (supportsCondition ctx) (supportsCondition ctx) :=
  .kind fun _ => .ite (.pure _)
    (.sized fun _ _ _ _ _ => follows_chainOf (follows_operandWithin ctx _ _))

/-! ### Statements -/

/-- An address follows itself. -/
theorem follows_location : Follows cut m n location location := by
  have hquoted {m n : Nat} : Follows cut m n quotedLocation quotedLocation :=
    .view fun _ _ _ => .ite
      (.skip (.kind fun _ => .ite (.skip (.pure _))
        (.bind (follows_passArguments _) fun _ => .pure _)))
      (.bind (follows_passArguments _) fun _ => .pure _)
  refine .view fun v _ _ => ?_
  simp only [View.kind_with]
  split
  · exact .skip (.pure _)
  · exact .skip (.pure _)
  · exact .ite (.skip hquoted) (.pure _)
  · exact .pure _

/-- The media of an import follow themselves. -/
theorem follows_importMedia : Follows cut m n (importMedia ctx) (importMedia ctx) := by
  refine .kind fun k => ?_
  split
  · exact .pure _
  · exact .pure _
  · exact follows_mediaList _

/-- A statement that is passed over follows itself. -/
theorem follows_abandonStatement : Follows cut m n abandonStatement abandonStatement :=
  .bind (.complainOf _) fun _ => .bind follows_passStatement fun _ => .pure _

/-- An import follows itself. -/
theorem follows_importStatement :
    Follows cut m n (importStatement ctx) (importStatement ctx) := by
  refine .bind follows_location fun href => ?_
  split
  · exact follows_abandonStatement
  · exact .bind follows_importMedia fun _ => .bind follows_passStatement fun _ => .pure _

/-- An encoding follows itself. -/
theorem follows_charsetStatement : Follows cut m n charsetStatement charsetStatement :=
  .view fun _ _ _ => .ite (.skip (.bind follows_passStatement fun _ => .pure _))
    follows_abandonStatement

/-- The label of a namespace follows itself. -/
theorem follows_namespaceLabel : Follows cut m n namespaceLabel namespaceLabel :=
  .view fun _ _ _ => .ite (.map (.taken _) _) (.pure _)

/-- A namespace follows itself. -/
theorem follows_namespaceStatement : Follows cut m n namespaceStatement namespaceStatement := by
  rw [namespaceStatement_eq]
  refine .bind follows_namespaceLabel fun label => .bind follows_location fun uri => ?_
  split
  · exact follows_abandonStatement
  · exact .bind follows_passStatement fun _ => .pure _

/-! ### Rules of declarations, and rules of unknown names -/

/-- A block follows itself, whether what stood before it was valid or not. -/
theorem follows_checkedBlock {α : Type} (valid : Bool) (cause : Cause) (position : Position)
    (make : Block → α) : Follows cut m n (checkedBlock ctx valid cause position make)
      (checkedBlock ctx valid cause position make) := by
  have hblock {m n : Nat} : Follows cut m n (blockIf ctx valid make) (blockIf ctx valid make) := by
    refine .bind (follows_declarationBlock _) fun block => ?_
    split <;> exact .pure _
  exact .ite (.bind (.complainAt _ _) fun _ => hblock) hblock

/-- A style rule follows itself. -/
theorem follows_styleRule : Follows cut m n (styleRule ctx) (styleRule ctx) := by
  rw [styleRule_eq]
  exact .view fun _ _ _ => .bind follows_selectorList fun _ => follows_checkedBlock _ _ _ _

/-- A rule that is a block of declarations follows itself. -/
theorem follows_blockRule (set : BlockKind) (make : Block → Rule) :
    Follows cut m n (blockRule ctx set make) (blockRule ctx set make) :=
  .bind (follows_declarationBlock _) fun _ => .pure _

/-- The selector of a page follows itself, given as many rounds as tokens. -/
theorem follows_pageSelectorFrom (selector : String) :
    Follows cut m n (pageSelectorFrom m selector) (pageSelectorFrom n selector) :=
  rounds (f := pageSelectorFrom)
    (fun _ _ ih _ => .view fun _ _ _ => .ite (.pure _) (.skip (ih _))) selector

/-- A page rule follows itself. -/
theorem follows_pageRule : Follows cut m n (pageRule ctx) (pageRule ctx) :=
  .sized fun _ _ _ _ _ => .bind (follows_pageSelectorFrom "") fun _ => follows_blockRule _ _

/-- What stands before the block of an unknown rule follows itself, given as many rounds as
tokens. -/
theorem follows_unknownPreambleFrom (kept : List Token) :
    Follows cut m n (unknownPreambleFrom m kept) (unknownPreambleFrom n kept) := by
  refine rounds (f := unknownPreambleFrom) (fun k l ih kept => ?_) kept
  refine .view fun v _ _ => .ite (.pure _) ?_
  simp only [keepToken, LawfulMonad.bind_assoc]
  exact .view fun _ _ _ => .skip (ih _)

/-- What stands in the block of an unknown rule follows itself, given as many rounds as tokens. -/
theorem follows_unknownBlockFrom (depth : Nat) (kept : List Token) :
    Follows cut m n (unknownBlockFrom m depth kept) (unknownBlockFrom n depth kept) := by
  refine rounds (f := fun k (state : Nat × List Token) => unknownBlockFrom k state.1 state.2)
    (fun k l ih state => ?_) (depth, kept)
  refine .view fun v _ _ => .ite (.pure _) ?_
  simp only [keepToken, LawfulMonad.bind_assoc]
  exact .view fun _ _ _ => .skip (.ite (.pure _) (ih (_, _)))

/-- The block of an unknown rule follows itself. -/
theorem follows_unknownBlock : Follows cut m n unknownBlock unknownBlock := by
  refine .sized fun v _ _ _ _ => ?_
  simp only [View.kind_with]
  split
  · exact .skip (.bind ((follows_unknownBlockFrom 1 []).mono (Nat.sub_le _ _) (Nat.sub_le _ _))
      fun _ => .pure _)
  · exact .skip (.pure _)
  · exact .pure _

/-- An unknown rule follows itself. -/
theorem follows_unknownRule (name : String) (position : Position) :
    Follows cut m n (unknownRule ctx name position) (unknownRule ctx name position) :=
  .ite (.sized fun _ _ _ _ _ => .bind (follows_unknownPreambleFrom _) fun _ =>
      .bind follows_unknownBlock fun _ => .pure _)
    (.bind (.complainAt _ _) fun _ => .bind follows_passRule fun _ => .pure _)

/-! ### Animations -/

/-- A moment of an animation follows itself. -/
theorem follows_keyframe : Follows cut m n (keyframe ctx) (keyframe ctx) := by
  rw [keyframe_eq]
  refine .inFrame (.sized fun v _ _ _ _ => .bind ?_ fun _ => follows_checkedBlock _ _ _ _) _
  exact rounds (f := keysFrom)
    (fun _ _ ih _ => .view fun _ _ _ => .ite (.pure _) (.skip (ih _))) .start

/-- The moments of an animation follow themselves. -/
theorem follows_keyframes : Follows cut m n (keyframes ctx) (keyframes ctx) := by
  refine .sized fun _ _ _ _ _ => rounds (f := keyframesFrom ctx) (fun k l ih frames => ?_) []
  refine .seeing fun i j hcut _ hi hj => ?_
  simp only [View.kind_with]
  split
  · exact Follows.pure _ i j hcut hi hj
  · exact Follows.pure _ i j hcut hi hj
  · next heof =>
    exact follows_part follows_keyframe hcut hi hj
      (advances_keyframe (hasTokens_of_kind_ne heof)) _ fun _ => ih _

/-- The name of an animation follows itself. -/
theorem follows_animationName : Follows cut m n animationName animationName := by
  refine .view fun v _ _ => ?_
  simp only [View.kind_with]
  split
  · exact .skip (.pure _)
  · exact .skip (.pure _)
  · exact .pure _

/-- An animation follows itself. -/
theorem follows_keyframesRule : Follows cut m n (keyframesRule ctx) (keyframesRule ctx) := by
  refine .bind follows_animationName fun name => ?_
  split
  · exact .bind (.complainOf _) fun _ => .bind follows_passRule fun _ => .pure _
  · exact .bind follows_blockOpening fun _ => .ite
      (.bind follows_keyframes fun _ => .bind follows_blockClosing fun _ => .pure _) (.pure _)

/-! ### Rules with rules inside -/

section

variable (hrule : Follows cut m n (rule ctx) (rule ctx))
include hrule

/-- The rules of a block follow themselves if rules do. -/
theorem follows_rulesOf : Follows cut m n (rulesOf (rule ctx)) (rulesOf (rule ctx)) := by
  refine .sized fun v _ size hm hn => loops (fun k l hk hl ih rules => ?_) []
  refine .seeing fun i j hcut _ hi hj => ?_
  simp only [View.kind_with]
  split
  · exact Follows.pure _ i j hcut hi hj
  · exact Follows.pure _ i j hcut hi hj
  · next heof =>
    have hpart := hrule.mono (Nat.le_trans hk hm) (Nat.le_trans hl hn)
    exact follows_part hpart hcut hi hj (advances_rule (hasTokens_of_kind_ne heof)) _ fun _ => ih _

/-- A block of rules follows itself if rules do. -/
theorem follows_ruleBlock : Follows cut m n (ruleBlock (rule ctx)) (ruleBlock (rule ctx)) :=
  .bind follows_blockOpening fun _ => .ite
    (.bind (follows_rulesOf hrule) fun _ => .bind follows_blockClosing fun _ => .pure _) (.pure _)

/-- A rule for media follows itself if rules do. -/
theorem follows_mediaRule :
    Follows cut m n (mediaRule ctx (rule ctx)) (mediaRule ctx (rule ctx)) := by
  refine .bind follows_mediaPrelude fun media => .view fun v _ _ => ?_
  simp only [View.kind_with]
  split
  · exact .skip (.bind ((follows_rulesOf hrule).mono (Nat.sub_le _ _) (Nat.sub_le _ _))
      fun _ => .bind follows_blockClosing fun _ => .pure _)
  · exact .bind (.complain _) fun _ => .skip (.pure _)
  · exact .bind (.complainOf _) fun _ => .pure _

/-- A rule with a condition follows itself if rules do. -/
theorem follows_supportsRule :
    Follows cut m n (supportsRule ctx (rule ctx)) (supportsRule ctx (rule ctx)) := by
  refine .bind follows_supportsCondition fun condition => ?_
  split
  · exact .bind (.complainOf _) fun _ => .bind follows_passRule fun _ => .pure _
  · exact .bind (follows_ruleBlock hrule) fun _ => .pure _

end

/-- Functions that name documents follow themselves, given a round more than tokens. -/
theorem follows_documentFunctionsFrom (functions : List DocumentFunction) :
    Follows cut m n (documentFunctionsFrom (m + 1) functions)
      (documentFunctionsFrom (n + 1) functions) := by
  have hargument {m n : Nat} (kind? : Option DocumentFunction.Kind) :
      Follows cut m n (documentArgument kind?) (documentArgument kind?) := by
    refine .view fun v _ _ => .ite (.bind (.map (.taken _) _)
      fun argument => ?_) (.bind (.pure _) fun argument => ?_)
    all_goals
      refine .kind fun k => ?_
      split
      · exact .skip (.pure _)
      · exact .bind (follows_passArguments _) fun _ => .pure _
  have hfunction {m n : Nat} : Follows cut m n documentFunction documentFunction := by
    refine .view fun v _ _ => ?_
    simp only [View.kind_with]
    split
    · exact .skip (.pure _)
    · exact .skip (hargument _)
    · exact .pure _
  refine rounds (f := fun k => documentFunctionsFrom (k + 1)) (fun k l ih functions => ?_) functions
  refine .bind hfunction fun function => ?_
  split
  · exact .pure _
  · exact .kind fun _ => .ite (.skip (ih _)) (.pure _)

/-- A rule for documents follows itself if rules do. -/
theorem follows_documentRule (hrule : Follows cut m n (rule ctx) (rule ctx)) :
    Follows cut m n (documentRule (rule ctx)) (documentRule (rule ctx)) := by
  refine .sized fun v _ _ hm hn => .bind (follows_documentFunctionsFrom _) fun functions => ?_
  split
  · exact .bind (.complainOf _) fun _ => .bind follows_passRule fun _ => .pure _
  · exact .bind (follows_ruleBlock (hrule.mono hm hn)) fun _ => .pure _

/-! ### Rules -/

/-- An at-rule follows itself if rules do on one token fewer. -/
theorem follows_atRule (hrule : Follows cut (m - 1) (n - 1) (rule ctx) (rule ctx)) :
    Follows cut m n (atRule ctx (rule ctx)) (atRule ctx (rule ctx)) := by
  refine .take fun keyword => ?_
  cases AtKeyword.ofName keyword.name with
  | media => exact follows_mediaRule hrule
  | fontFace => exact follows_blockRule _ _
  | keyframes => exact follows_keyframesRule
  | importRule => exact follows_importStatement
  | charset => exact follows_charsetStatement
  | namespaceRule => exact follows_namespaceStatement
  | page => exact follows_pageRule
  | supports => exact follows_supportsRule hrule
  | viewport => exact follows_blockRule _ _
  | document => exact follows_documentRule hrule
  | unknown => exact follows_unknownRule _ _

/-- What any token starts follows itself if rules do on one token fewer. -/
theorem follows_ruleStarting (hrule : Follows cut (m - 1) (n - 1) (rule ctx) (rule ctx))
    (k : Token.Kind) :
    Follows cut m n (ruleStarting ctx (rule ctx) k) (ruleStarting ctx (rule ctx) k) := by
  have habandon (cause : String → Cause) :
      Follows cut m n (abandonRule cause) (abandonRule cause) :=
    .bind (.complainOf _) fun _ => .bind follows_passRule fun _ => .pure _
  unfold ruleStarting
  split
  · exact .pure _
  · exact follows_atRule hrule
  all_goals first | exact habandon _ | exact follows_styleRule

/-- A rule is read alike wherever the input is cut, as long as it ends before. -/
theorem follows_rule (ctx : Context) (cut : List Lexeme) (m n : Nat) :
    Follows cut m n (rule ctx) (rule ctx) := by
  induction m generalizing n with
  | zero =>
    refine .of_before fun i j hcut hend hi _ => absurd ?_ hend
    have hsize := hcut.size_eq
    exact j.size_eq_zero_iff.1 (by omega)
  | succ m ih =>
    refine .of_before fun i j hcut hend hi hj => ?_
    rw [read_rule, read_rule, hcut.kind_eq hend]
    exact follows_ruleStarting (ih _) _ i j hcut hi hj

end Cssom.Grammar
