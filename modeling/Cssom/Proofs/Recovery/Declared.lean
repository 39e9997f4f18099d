import Cssom.Proofs.Recovery.Declarations
import Cssom.Proofs.SyntaxTree.Attempts

/-!
# The declarations of a reading

Which declarations a reading starts, and which properties these give, is told by the frames that it
opens. Reading a block starts its declarations one after another, and no other ones: what they give
is what is put into the block (`declared_declarations`).
-/

namespace Cssom

open Grammar Production

/-- The property that an attempt at a declaration gave. -/
def Attempt.declared? (a : Attempt) : Option Property :=
  match a.built with
  | some (.declaration property) => some property
  | _ => none

/-- An attempt at a part of something declares nothing. -/
theorem Attempt.declared?_of_part {a : Attempt} (h : ∀ e, a.aim e → e.IsPart) :
    a.declared? = none := by
  unfold declared?
  split
  · next p hp => exact (h _ (a.aim_of_built _ hp)).elim
  · rfl

namespace Production

variable {α β : Type}

/-- The properties that are declared while an input is read, in order. -/
def declared (p : Production α) (input : Input) : List Property :=
  (p.attempts input).filterMap Attempt.declared?

open Classical in
/-- Where declarations are started while an input is read, in order. -/
noncomputable def declarationStarts (p : Production α) (input : Input) : List Input :=
  ((p.attempts input).filter fun a => a.AtDeclaration).map Attempt.start

/-- Steps, one after the other, declare what each of them does. -/
theorem declared_bind (p : Production α) (f : α → Production β) (input : Input) :
    (p >>= f).declared input =
      p.declared input ++ (f (p.read input).result).declared (p.read input).rest := by
  rw [declared, attempts_bind, List.filterMap_append]
  rfl

/-- Steps, one after the other, start the declarations that each of them does. -/
theorem declarationStarts_bind (p : Production α) (f : α → Production β) (input : Input) :
    (p >>= f).declarationStarts input = p.declarationStarts input ++
      (f (p.read input).result).declarationStarts (p.read input).rest := by
  rw [declarationStarts, attempts_bind, List.filter_append, List.map_append]
  rfl

/-- Parts of rules declare nothing. -/
theorem AimsOnly.declared_eq {p : Production α} (h : p.AimsOnly Entity.IsPart) (input : Input) :
    p.declared input = [] := by
  refine List.filterMap_eq_nil_iff.2 fun a ha => Attempt.declared?_of_part ?_
  exact h input a ha

open Classical in
/-- What aims at parts only starts no declarations. -/
theorem AimsOnly.declarationStarts_eq {p : Production α} (h : p.AimsOnly Entity.IsPart)
    (input : Input) : p.declarationStarts input = [] := by
  rw [declarationStarts, List.map_eq_nil_iff, List.filter_eq_nil_iff]
  intro a ha hat
  obtain ⟨property, hproperty⟩ := of_decide_eq_true hat
  exact h input a ha _ hproperty

end Production

namespace Grammar

variable {ctx : Context} {set : BlockKind}

open Classical in
/-- A declaration starts itself, and nothing else. -/
theorem declarationStarts_declaration (ctx : Context) (set : BlockKind) (i : Input) :
    (declaration ctx set).declarationStarts i = [i] := by
  obtain ⟨body, hbody, haims⟩ := declaration_in_frame ctx set
  have hinside : body.declarationStarts i = [] := haims.declarationStarts_eq i
  have hat : (Attempt.ofFrame body (·.map Entity.declaration) i).AtDeclaration :=
    ⟨default, some default, rfl⟩
  unfold declarationStarts at hinside ⊢
  rw [hbody, attempts_inFrame, List.filter_cons, if_pos (decide_eq_true hat), List.map_cons,
    hinside]
  rfl

/-- The property that a declaration gives is what it declares. -/
theorem declared_declaration (ctx : Context) (set : BlockKind) (i : Input) :
    (declaration ctx set).declared i = ((declaration ctx set).read i).result.toList := by
  obtain ⟨body, hbody, haims⟩ := declaration_in_frame ctx set
  have hinside : (body.attempts i).filterMap Attempt.declared? = [] := haims.declared_eq i
  rw [declared, hbody, attempts_inFrame, List.filterMap_cons, hinside, read_inFrame]
  have hown : (Attempt.ofFrame body (·.map Entity.declaration) i).declared? =
      (body.read i).result := by
    change (match (body.read i).result.map Entity.declaration with
      | some (.declaration property) => some property
      | _ => none) = (body.read i).result
    cases (body.read i).result <;> rfl
  rw [hown]
  cases (body.read i).result <;> rfl

/-- A declaration of a block declares what it gives. -/
theorem declared_declarationRound (ctx : Context) (set : BlockKind) (start : UInt32) (i : Input) :
    (declarationRound ctx set start).declared i =
      ((declarationRound ctx set start).read i).result := by
  have hguard (input : Input) : (passIfStuck start).declared input = [] :=
    (AimsOnly.of_frameless (.passIfStuck start)).declared_eq input
  rw [declarationRound, declared_bind, declared_declaration, declared_bind, hguard,
    result_read_bind, result_read_bind]
  exact List.append_nil _

/-- Reading on in a block declares what it gives. -/
theorem declared_acceptedFrom (ctx : Context) (set : BlockKind) (rounds : Nat) (i : Input) :
    (acceptedFrom ctx set rounds).declared i = ((acceptedFrom ctx set rounds).read i).result := by
  induction rounds generalizing i with
  | zero => rfl
  | succ rounds ih =>
    unfold acceptedFrom
    rw [declared_bind, result_read_bind, read_view]
    change [] ++ _ = _
    rw [List.nil_append]
    split
    · rfl
    · rfl
    · rw [declared_bind, result_read_bind]
      exact ih _
    · rw [declared_bind, declared_declarationRound, declared_bind, ih, result_read_bind,
        result_read_bind, read_pure]
      exact congrArg _ (List.append_nil _)

/-- The properties that are put into a block are those that its declarations give. -/
theorem declared_declarations (block : Block) (i : Input) :
    (declarations ctx set block).declared i = ((accepted ctx set).read i).result := by
  rw [declarations_eq, map_eq_pure_bind, declared_bind, accepted, declared_bind, read_view,
    declared_acceptedFrom]
  exact List.append_nil _

/-- A block is made of the declarations that reading it declares. -/
theorem result_declarations (block : Block) (i : Input) :
    ((declarations ctx set block).read i).result =
      ((declarations ctx set block).declared i).foldl Block.set block := by
  rw [declared_declarations, declarations_eq, read_map]

end Grammar

end Cssom
