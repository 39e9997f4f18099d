import Cssom.Proofs.Reading.Endings
import Cssom.Proofs.SyntaxTree.Nodes

/-!
# Which frames a production opens

Which entities the frames have that reading adds, at any depth, is said by `OpensOnly`, which is put
together where productions are. Many productions open no frame at all: they only pass over tokens.
-/

namespace Cssom

open SyntaxTree

namespace SyntaxTree

mutual

/-- The frames of the tree, itself first, in the order in which they start. -/
def frames : SyntaxTree → List SyntaxTree
  | leaf _ => []
  | frame entity nodes => frame entity nodes :: allFrames nodes

/-- The frames of the trees, in the order in which they start. -/
def allFrames : List SyntaxTree → List SyntaxTree
  | [] => []
  | node :: rest => node.frames ++ allFrames rest

end

@[simp] theorem allFrames_append (a b : List SyntaxTree) :
    allFrames (a ++ b) = allFrames a ++ allFrames b := by
  induction a with
  | nil => rfl
  | cons node rest ih => rw [List.cons_append, allFrames, allFrames, ih, List.append_assoc]

@[simp] theorem allFrames_leaves (tokens : List Token) : allFrames (tokens.map leaf) = [] := by
  induction tokens with
  | nil => rfl
  | cons token tokens ih => exact ih

/-- A frame that stands among some nodes is one of their frames. -/
theorem mem_allFrames {node : SyntaxTree} {nodes : List SyntaxTree} (h : node ∈ nodes)
    (hframe : node.isFrame = true) : node ∈ allFrames nodes := by
  induction nodes with
  | nil => exact absurd h List.not_mem_nil
  | cons first rest ih =>
    rw [allFrames, List.mem_append]
    rcases List.mem_cons.1 h with rfl | h
    · left
      cases node with
      | leaf token => cases hframe
      | frame entity nodes => exact List.mem_cons_self
    · exact Or.inr (ih h)

/-- The tree is a frame in which a rule was built. -/
def isRule (tree : SyntaxTree) : Bool :=
  match tree.entity? with
  | some (.rule _) => true
  | _ => false

end SyntaxTree

namespace Entity

/-- No rule was built. -/
def IsNoRule (entity : Option Entity) : Prop :=
  ∀ r, entity ≠ some (.rule r)

end Entity

namespace Production

/-- Each frame that reading adds, however deep, has an entity of some sort. -/
def OpensOnly {α : Type} (p : Production α) (ok : Option Entity → Prop) : Prop :=
  ∀ input, ∀ f ∈ allFrames (p.nodes input), ok f.entity?

/-- Reading adds no frame. -/
abbrev Frameless {α : Type} (p : Production α) : Prop :=
  p.OpensOnly fun _ => False

namespace OpensOnly

variable {α β : Type} {ok : Option Entity → Prop} {p q : Production α}

/-- Giving a result adds no frame. -/
theorem pure (a : α) : (Pure.pure a : Production α).OpensOnly ok :=
  fun _ _ hf => absurd hf List.not_mem_nil

/-- One production after another adds the frames of both. -/
theorem bind {f : α → Production β} (hp : p.OpensOnly ok) (hf : ∀ a, (f a).OpensOnly ok) :
    (p >>= f).OpensOnly ok := by
  intro input tree htree
  rw [nodes_bind, allFrames_append, List.mem_append] at htree
  rcases htree with htree | htree
  · exact hp _ _ htree
  · exact hf _ _ _ htree

/-- A choice adds the frames of the branch that it takes. -/
theorem ite {c : Prop} [Decidable c] (hp : p.OpensOnly ok) (hq : q.OpensOnly ok) :
    (if c then p else q).OpensOnly ok := by
  split
  · exact hp
  · exact hq

/-- What follows a look is free to use what is seen. -/
theorem view {f : View → Production α} (hf : ∀ v, (f v).OpensOnly ok) :
    (Production.view >>= f).OpensOnly ok :=
  fun input => hf input.view input

/-- Looking at the next kind adds no frame. -/
theorem kind {f : Token.Kind → Production α} (hf : ∀ k, (f k).OpensOnly ok) :
    (Production.kind >>= f).OpensOnly ok :=
  fun input => hf input.view.kind input

/-- Skipping a token adds no frame. -/
theorem skip : Production.skip.OpensOnly ok := by
  intro input f hf
  rw [nodes_skip, allFrames_leaves] at hf
  exact absurd hf List.not_mem_nil

/-- Taking a token adds no frame. -/
theorem take : Production.take.OpensOnly ok := by
  intro input f hf
  rw [nodes_take, allFrames_leaves] at hf
  exact absurd hf List.not_mem_nil

/-- A complaint at a place adds no frame. -/
theorem complainAt (cause : Cause) (position : Position) :
    (Production.complainAt cause position).OpensOnly ok :=
  fun _ _ hf => absurd hf List.not_mem_nil

/-- A complaint about what comes next adds no frame. -/
theorem complain (cause : Cause) : (Production.complain cause).OpensOnly ok :=
  fun _ _ hf => absurd hf List.not_mem_nil

/-- A complaint that names what comes next adds no frame. -/
theorem complainOf (cause : String → Cause) : (Production.complainOf cause).OpensOnly ok :=
  fun _ _ hf => absurd hf List.not_mem_nil

/-- Changing the result adds no frame. -/
theorem map (hp : p.OpensOnly ok) (f : α → β) : (f <$> p).OpensOnly ok :=
  bind hp fun _ => pure _

/-- Skipping a token of a kind, if it comes next, adds no frame. -/
theorem skipIf (k : Token.Kind) : (Production.skipIf k).OpensOnly ok :=
  view fun _ => ite skip (pure _)

/-- Passing over a token where nothing was consumed adds no frame. -/
theorem passIfStuck (before : UInt32) : (Production.passIfStuck before).OpensOnly ok :=
  view fun _ => ite (bind (complainOf _) fun _ => skip) (pure _)

/-- A frame of its own, which has an entity of that sort. -/
theorem enclosed {body : Production β} {entity : β → Option Entity} (hbody : body.OpensOnly ok)
    (hentity : ∀ b, ok (entity b)) : (Production.enclosed body entity Pure.pure).OpensOnly ok := by
  intro input f hf
  rw [nodes_enclosed, allFrames, frames, allFrames, List.append_nil] at hf
  rcases List.mem_cons.1 hf with rfl | hf
  · exact hentity _
  · exact hbody _ _ hf

/-- A frame for results of one sort has the entity that its result is made into, if there is one. -/
theorem inFrame {body : Production (Option α)} {entity : α → Entity} (hbody : body.OpensOnly ok)
    (hentity : ∀ a : Option α, ok (a.map entity)) :
    (Production.inFrame entity body).OpensOnly ok :=
  enclosed hbody hentity

end OpensOnly

end Production

open Production

namespace Grammar

variable {ok : Option Entity → Prop} {ctx : Context}

/-! ### Productions that only pass over tokens -/

/-- Passing over a rule adds no frame. -/
theorem opens_passRule : passRule.OpensOnly ok := by
  have hfrom (rounds depth : Nat) : (passRuleFrom rounds depth).OpensOnly ok := by
    induction rounds generalizing depth with
    | zero => exact .pure _
    | succ rounds ih =>
      exact .view fun _ => .ite (.pure _) (.bind .skip fun _ => .ite (.pure _) (ih _))
  exact .view fun _ => hfrom _ _

/-- Passing over a statement adds no frame. -/
theorem opens_passStatement : passStatement.OpensOnly ok := by
  have hfrom (rounds : Nat) : (passStatementFrom rounds).OpensOnly ok := by
    induction rounds with
    | zero => exact .pure _
    | succ rounds ih =>
      exact .view fun _ => .ite (.pure _) (.bind .skip fun _ => .ite (.pure _) ih)
  exact .view fun _ => hfrom _

/-- Passing over a declaration adds no frame. -/
theorem opens_passDeclaration : passDeclaration.OpensOnly ok := by
  have hfrom (rounds depth : Nat) : (passDeclarationFrom rounds depth).OpensOnly ok := by
    induction rounds generalizing depth with
    | zero => exact .pure _
    | succ rounds ih => exact .view fun _ => .ite (.pure _) (.bind .skip fun _ => ih _)
  exact .view fun _ => hfrom _ _

/-- Passing over the arguments of a function adds no frame. -/
theorem opens_passArguments (depth : Nat) : (passArguments depth).OpensOnly ok := by
  have hfrom (rounds depth : Nat) : (passArgumentsFrom rounds depth).OpensOnly ok := by
    induction rounds generalizing depth with
    | zero => exact .pure _
    | succ rounds ih => exact .view fun _ => .ite (.pure _) (.bind .skip fun _ => ih _)
  exact .view fun _ => hfrom _ _

/-- Passing over media adds no frame. -/
theorem opens_passMedia (terminator : Token.Kind) : (passMedia terminator).OpensOnly ok := by
  have hfrom (rounds depth : Nat) : (passMediaFrom terminator rounds depth).OpensOnly ok := by
    induction rounds generalizing depth with
    | zero => exact .pure _
    | succ rounds ih => exact .view fun _ => .ite (.pure _) (.bind .skip fun _ => ih _)
  exact .view fun _ => hfrom _ _

/-- The tokens of selectors add no frame. -/
theorem opens_selectorsFrom (rounds : Nat) (builder : SelectorList.Builder) :
    (selectorsFrom rounds builder).OpensOnly ok := by
  induction rounds generalizing builder with
  | zero => exact .pure _
  | succ rounds ih => exact .view fun _ => .ite (.pure _) (.bind .skip fun _ => ih _)

/-- The tokens of a value add no frame. -/
theorem opens_valueFrom (terminators : List Token.Kind) (rounds : Nat) (reading : ValueReading) :
    (valueFrom terminators rounds reading).OpensOnly ok := by
  have htoken (reading : ValueReading) : (takeValueToken reading).OpensOnly ok :=
    .view fun _ => .bind .skip fun _ =>
      .ite (.bind (opens_passArguments _) fun _ => .pure _) (.pure _)
  have himportance (reading : ValueReading) : (takeImportance reading).OpensOnly ok :=
    .bind .skip fun _ => .view fun _ => .ite (.bind .skip fun _ => .pure _) (.pure _)
  induction rounds generalizing reading with
  | zero => exact .pure _
  | succ rounds ih =>
    exact .view fun _ => .ite (.pure _)
      (.ite (.bind (himportance _) fun _ => ih _) (.bind (htoken _) fun _ => ih _))

/-- The name of a declaration adds no frame. -/
theorem opens_declarationName : declarationName.OpensOnly ok := by
  have hfrom (rounds : Nat) (name : String) : (nameFrom rounds name).OpensOnly ok := by
    induction rounds generalizing name with
    | zero => exact .pure _
    | succ rounds ih => exact .view fun _ => .ite (.pure _) (.bind .skip fun _ => ih _)
  exact .view fun _ => hfrom _ _

/-- What is made of a property and its value adds no frame. -/
theorem opens_property (set : BlockKind) (name : String) (position : Position) :
    (property ctx set name position).OpensOnly ok := by
  refine .ite (.pure _) ?_
  split
  · exact .pure _
  · exact .bind (.complainAt _ _) fun _ => .pure _

/-- Abandoning a declaration adds no frame. -/
theorem opens_abandonDeclaration : abandonDeclaration.OpensOnly ok :=
  .bind opens_passDeclaration fun _ => .bind (.skipIf _) fun _ => .pure _

/-- The keys of a moment add no frame. -/
theorem opens_keysFrom (rounds : Nat) (reading : KeyReading) :
    (keysFrom rounds reading).OpensOnly ok := by
  induction rounds generalizing reading with
  | zero => exact .pure _
  | succ rounds ih => exact .view fun _ => .ite (.pure _) (.bind .skip fun _ => ih _)

/-- The tokens of a page selector add no frame. -/
theorem opens_pageSelectorFrom (rounds : Nat) (selector : String) :
    (pageSelectorFrom rounds selector).OpensOnly ok := by
  induction rounds generalizing selector with
  | zero => exact .pure _
  | succ rounds ih => exact .view fun _ => .ite (.pure _) (.bind .skip fun _ => ih _)

/-- The name of an animation adds no frame. -/
theorem opens_animationName : animationName.OpensOnly ok := by
  refine .view fun v => ?_
  split
  · exact .bind .skip fun _ => .pure _
  · exact .bind .skip fun _ => .pure _
  · exact .pure _

/-- The opening of a block adds no frame. -/
theorem opens_blockOpening : blockOpening.OpensOnly ok :=
  .kind fun _ => .ite (.bind .skip fun _ => .pure _)
    (.bind (.complainOf _) fun _ => .bind opens_passRule fun _ => .pure _)

/-- The closing of a block adds no frame. -/
theorem opens_blockClosing : blockClosing.OpensOnly ok := .skipIf _

/-- A location adds no frame. -/
theorem opens_location : location.OpensOnly ok := by
  have hquoted : quotedLocation.OpensOnly ok :=
    .view fun _ => .ite
      (.bind .skip fun _ => .kind fun _ => .ite (.bind .skip fun _ => .pure _)
        (.bind (opens_passArguments _) fun _ => .pure _))
      (.bind (opens_passArguments _) fun _ => .pure _)
  refine .view fun v => ?_
  split
  · exact .bind .skip fun _ => .pure _
  · exact .bind .skip fun _ => .pure _
  · exact .ite (.bind .skip fun _ => hquoted) (.pure _)
  · exact .pure _

/-- Abandoning a statement adds no frame. -/
theorem opens_abandonStatement : abandonStatement.OpensOnly ok :=
  .bind (.complainOf _) fun _ => .bind opens_passStatement fun _ => .pure _

/-- What follows the keyword of a charset rule adds no frame. -/
theorem opens_charsetStatement : charsetStatement.OpensOnly ok :=
  .view fun _ => .ite
    (.bind .skip fun _ => .bind opens_passStatement fun _ => .pure _) opens_abandonStatement

/-- The prefix of a namespace adds no frame. -/
theorem opens_namespaceLabel : namespaceLabel.OpensOnly ok :=
  .view fun _ => .ite (.map (.map .take _) _) (.pure _)

/-- What follows the keyword of a namespace rule adds no frame. -/
theorem opens_namespaceStatement : namespaceStatement.OpensOnly ok := by
  rw [namespaceStatement_eq]
  refine .bind opens_namespaceLabel fun label => .bind opens_location fun uri => ?_
  split
  · exact opens_abandonStatement
  · exact .bind opens_passStatement fun _ => .pure _

/-- The functions of a document rule add no frame. -/
theorem opens_documentFunctionsFrom (rounds : Nat) (functions : List DocumentFunction) :
    (documentFunctionsFrom rounds functions).OpensOnly ok := by
  have hargument (kind? : Option DocumentFunction.Kind) :
      (documentArgument kind?).OpensOnly ok := by
    refine .view fun v => .ite (.bind (.map (.map .take _) _) fun argument => ?_)
      (.bind (.pure _) fun argument => ?_)
    all_goals
      refine .kind fun k => ?_
      split
      · exact .bind .skip fun _ => .pure _
      · exact .bind (opens_passArguments _) fun _ => .pure _
  have hfunction : documentFunction.OpensOnly ok := by
    refine .view fun v => ?_
    split
    · exact .bind .skip fun _ => .pure _
    · exact .bind .skip fun _ => hargument _
    · exact .pure _
  induction rounds generalizing functions with
  | zero => exact .pure _
  | succ rounds ih =>
    refine .bind hfunction fun function => ?_
    split
    · exact .pure _
    · exact .kind fun _ => .ite (.bind .skip fun _ => ih _) (.pure _)

/-- An unknown rule adds no frame. -/
theorem opens_unknownRule (name : String) (position : Position) :
    (unknownRule ctx name position).OpensOnly ok := by
  have hkeep (keepSpace : Bool) : (keepToken keepSpace).OpensOnly ok :=
    .view fun _ => .bind .skip fun _ => .pure _
  have hpreamble (rounds : Nat) (kept : List Token) :
      (unknownPreambleFrom rounds kept).OpensOnly ok := by
    induction rounds generalizing kept with
    | zero => exact .pure _
    | succ rounds ih => exact .view fun _ => .ite (.pure _) (.bind (hkeep _) fun _ => ih _)
  have hblock (rounds depth : Nat) (kept : List Token) :
      (unknownBlockFrom rounds depth kept).OpensOnly ok := by
    induction rounds generalizing depth kept with
    | zero => exact .pure _
    | succ rounds ih =>
      exact .view fun _ => .ite (.pure _) (.bind (hkeep _) fun _ => .ite (.pure _) (ih _ _))
  have hbody : unknownBlock.OpensOnly ok := by
    refine .view fun v => ?_
    split
    · exact .bind .skip fun _ => .bind (hblock _ _ _) fun _ => .pure _
    · exact .bind .skip fun _ => .pure _
    · exact .pure _
  exact .ite (.view fun _ => .bind (hpreamble _ _) fun _ => .bind hbody fun _ => .pure _)
    (.bind (.complainAt _ _) fun _ => .bind opens_passRule fun _ => .pure _)

end Grammar

end Cssom
