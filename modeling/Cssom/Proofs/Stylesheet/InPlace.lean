import Cssom.Stylesheet.InPlace

/-!
# Edits in place and on copies

An edit makes a changed copy of what it is asked of, or says why it cannot. A call in place follows
an edit if it leaves behind what the edit makes, and the state as it was if the edit cannot be done.
Each call on a list of rules, a condition or the moments of an animation follows its edit, and a
part that is written back as it was leaves the whole as it was (`Follows.within`); so every call on
a style sheet, at the end of whatever path, follows the edit of that style sheet
(`perform_follows`).
-/

namespace Cssom

/-! ### Calls that leave a state as it was -/

namespace InPlace

variable {σ τ α β : Type}

/-- What comes of an edit in place: nothing changes if it cannot be done. -/
def outcome (state : σ) : Edit (α × σ) → EStateM.Result EditFailure σ α
  | .ok (result, changed) => .ok result changed
  | .error failure => .error failure state

/-- A call that leaves behind what an edit makes of the state, and the state itself if the edit
cannot be done. -/
def Follows (call : InPlace σ α) (edit : σ → Edit (α × σ)) : Prop :=
  ∀ state, call.run state = outcome state (edit state)

@[simp] theorem run_throw (failure : EditFailure) (state : σ) :
    (throw failure : InPlace σ α).run state = .error failure state := rfl

@[simp] theorem run_map (f : α → β) (call : InPlace σ α) (state : σ) :
    (f <$> call : InPlace σ β).run state = match call.run state with
      | .ok result changed => .ok (f result) changed
      | .error failure changed => .error failure changed := by
  change EStateM.map f call state = _
  rw [EStateM.map, EStateM.run]
  cases call state <;> rfl

/-- A call whose answer is mapped follows its edit with the answer mapped. -/
theorem Follows.map {call : InPlace σ α} {edit : σ → Edit (α × σ)} (h : call.Follows edit)
    (f : α → β) : InPlace.Follows (f <$> call) fun state => Prod.map f id <$> edit state := by
  intro state
  simp only [run_map, h state]
  rcases edit state with failure | ⟨result, changed⟩ <;> rfl

/-- A call on a part leaves the part as it says, or has no target if there is no such part. -/
theorem run_within (part? : σ → Option τ) (withPart : τ → σ → σ) (call : InPlace τ α) (state : σ) :
    (within part? withPart call).run state = match part? state with
      | none => .error .noTarget state
      | some part =>
        match call.run part with
        | .ok result part => .ok result (withPart part state)
        | .error failure part => .error failure (withPart part state) := rfl

/-- What an edit makes of a part of a state, in its place. -/
def onPart (part? : σ → Option τ) (withPart : τ → σ → σ) (edit : τ → Edit (α × τ)) (state : σ) :
    Edit (α × σ) :=
  match part? state with
  | none => .error .noTarget
  | some part => Prod.map id (withPart · state) <$> edit part

/-- A part that is written back as it was leaves the state as it was. -/
theorem Follows.within {part? : σ → Option τ} {withPart : τ → σ → σ}
    (hlens : ∀ state part, part? state = some part → withPart part state = state)
    {call : InPlace τ α} {edit : τ → Edit (α × τ)} (h : call.Follows edit) :
    (within part? withPart call).Follows (onPart part? withPart edit) := by
  intro state
  rcases hpart : part? state with _ | part
  · simp only [run_within, onPart, hpart]
    rfl
  · simp only [run_within, onPart, hpart, h part]
    rcases edit part with failure | ⟨result, changed⟩
    · exact congrArg _ (hlens state part hpart)
    · rfl

/-! ### Calls on a list, a condition or the moments of an animation -/

@[simp] theorem run_accept_ok (a : α) (state : σ) :
    (accept (.ok a) : InPlace σ α).run state = .ok a state := rfl

@[simp] theorem run_accept_error (diagnostic : Diagnostic) (state : σ) :
    (accept (.error diagnostic) : InPlace σ α).run state =
      .error (.refused diagnostic) state := rfl

/-- Inserting a rule in place follows its edit. -/
theorem insertRule_follows (text : String) (index : Nat) :
    (insertRule text index).Follows fun rules =>
      (index, ·) <$> (RuleList.insert index text rules).mapError .refused := by
  intro rules
  by_cases hindex : rules.length < index
  · have hrun : (insertRule text index).run rules =
        .error (.refused (RuleList.outOfRange index rules)) rules := by
      simp [insertRule, hindex]
    simp only [hrun, RuleList.insert, if_pos hindex]
    rfl
  · rcases hread : Rule.ofText text .strict with diagnostic | rule
    · have hrun : (insertRule text index).run rules = .error (.refused diagnostic) rules := by
        simp [insertRule, hindex, hread]
      simp only [hrun, RuleList.insert, if_neg hindex, hread]
      rfl
    · have hrun : (insertRule text index).run rules = .ok index (rules.insertIdx index rule) := by
        simp [insertRule, hindex, hread]
      simp only [hrun, RuleList.insert, if_neg hindex, hread]
      rfl

/-- Deleting a rule in place follows its edit. -/
theorem deleteRule_follows (index : Nat) :
    (deleteRule index).Follows fun rules => (RuleList.delete index rules).mapError .refused := by
  intro rules
  rcases hrule : rules[index]? with _ | rule
  · have hrun : (deleteRule index).run rules =
        .error (.refused (RuleList.outOfRange index rules)) rules := by
      simp [deleteRule, hrule]
    simp only [hrun, RuleList.delete, hrule]
    rfl
  · have hrun : (deleteRule index).run rules = .ok rule (rules.eraseIdx index) := by
      simp [deleteRule, hrule]
    simp only [hrun, RuleList.delete, hrule]
    rfl

/-- Replacing a rule in place follows its edit. -/
theorem replaceRule_follows (index : Nat) (rule : Rule) :
    (replaceRule index rule).Follows fun rules =>
      (RuleList.replace index rule rules).mapError .refused := by
  intro rules
  rcases hold : rules[index]? with _ | old
  · have hrun : (replaceRule index rule).run rules =
        .error (.refused (RuleList.outOfRange index rules)) rules := by
      simp [replaceRule, hold]
    simp only [hrun, RuleList.replace, hold]
    rfl
  · have hrun : (replaceRule index rule).run rules = .ok old (rules.set index rule) := by
      simp [replaceRule, hold]
    simp only [hrun, RuleList.replace, hold]
    rfl

/-- Setting a condition in place follows its edit. -/
theorem setCondition_follows (text : String) : (setCondition text).Follows fun _ =>
    ((), ·) <$> (Condition.ofText text).mapError .refused := by
  intro old
  rcases hread : Condition.ofText text with diagnostic | condition
  · have hrun : (setCondition text).run old = .error (.refused diagnostic) old := by
      simp [setCondition, hread]
    exact hrun
  · have hrun : (setCondition text).run old = .ok () condition := by
      simp [setCondition, hread]
    exact hrun

/-- Appending a moment in place follows its edit. -/
theorem appendKeyframe_follows (text : String) : (appendKeyframe text).Follows fun frames =>
    (fun frame => ((), frames ++ [frame])) <$> (Keyframe.ofText text).mapError .refused := by
  intro frames
  rcases hread : Keyframe.ofText text with diagnostic | frame
  · have hrun : (appendKeyframe text).run frames = .error (.refused diagnostic) frames := by
      simp [appendKeyframe, hread]
    exact hrun
  · have hrun : (appendKeyframe text).run frames = .ok () (frames ++ [frame]) := by
      simp [appendKeyframe, hread]
    exact hrun

/-- A call follows every edit that does the same. -/
theorem Follows.of_eq {call : InPlace σ α} {edit other : σ → Edit (α × σ)} (h : call.Follows edit)
    (heq : ∀ state, edit state = other state) : call.Follows other :=
  fun state => (h state).trans (congrArg (outcome state) (heq state))

/-! ### Along a path -/

/-- What an edit makes of the rule at an index. -/
def onRule (index : Nat) (edit : RuleEdit α) : List Rule → Edit (α × List Rule) :=
  onPart (fun rules => rules[index]?) (fun rule rules => rules.set index rule) edit

/-- Writing back the rule at an index changes no rule. -/
theorem set_getElem? (index : Nat) (rules : List Rule) (rule : Rule)
    (h : rules[index]? = some rule) : rules.set index rule = rules := by
  obtain ⟨hindex, rfl⟩ := List.getElem?_eq_some_iff.1 h
  exact List.set_getElem_self hindex

/-- Writing back the rules inside of a rule changes nothing. -/
theorem withNested_nested (rule : Rule) (nested : List Rule) (h : rule.nested? = some nested) :
    rule.withNested nested = rule := by
  cases rule <;> cases h <;> rfl

/-- Writing back the condition of a rule changes nothing. -/
theorem withCondition_condition (rule : Rule) (condition : Condition)
    (h : rule.condition? = some condition) : rule.withCondition condition = rule := by
  cases rule <;> cases h
  rfl

/-- Writing back the moments of a rule changes nothing. -/
theorem withKeyframes_keyframes (rule : Rule) (frames : List Keyframe)
    (h : rule.keyframes? = some frames) : rule.withKeyframes frames = rule := by
  cases rule <;> cases h
  rfl

/-- An edit along a path is the edit of the rest of it, on the rules inside of the rule at its first
index. -/
theorem editRules_cons (edit : List Rule → Edit (α × List Rule)) (index : Nat) (path : List Nat) :
    RuleList.editRules edit (index :: path) =
      onRule index (onPart Rule.nested? Rule.withNested (RuleList.editRules edit path)) := by
  funext rules
  rw [RuleList.editRules, onRule, onPart]
  rcases rules[index]? with _ | rule
  · rfl
  · simp only [onPart]
    rcases rule.nested? with _ | nested
    · rfl
    · simp only
      rcases RuleList.editRules edit path nested with _ | ⟨result, changed⟩ <;> rfl

/-- Along a path, a call does to a list of rules what the edit does to a copy. -/
theorem Follows.atList {call : InPlace (List Rule) α} {edit : List Rule → Edit (α × List Rule)}
    (h : call.Follows edit) (path : List Nat) :
    (atList call path).Follows (RuleList.editRules edit path) := by
  induction path with
  | nil => exact h
  | cons index path ih =>
    rw [editRules_cons]
    exact .within (set_getElem? index) (.within withNested_nested ih)

/-- A function of the result can be applied to an edit of a part or afterwards. -/
theorem onPart_map (f : α → β) (part? : σ → Option τ) (withPart : τ → σ → σ)
    (edit : τ → Edit (α × τ)) :
    onPart part? withPart (fun part => Prod.map f id <$> edit part) =
      fun state => Prod.map f id <$> onPart part? withPart edit state := by
  funext state
  simp only [onPart]
  rcases part? state with _ | part
  · rfl
  · simp only
    rcases edit part with _ | ⟨result, changed⟩ <;> rfl

/-- The answer of an edit along a path may be mapped behind it. -/
theorem editRules_map (f : α → β) (edit : List Rule → Edit (α × List Rule)) (path : List Nat) :
    RuleList.editRules (fun rules => Prod.map f id <$> edit rules) path =
      fun rules => Prod.map f id <$> RuleList.editRules edit path rules := by
  induction path with
  | nil => rfl
  | cons index path ih =>
    rw [editRules_cons, editRules_cons, ih, onPart_map]
    exact onPart_map f _ _ _

/-- Setting the condition of a rule is an edit of a part of it. -/
theorem setCondition_eq (text : String) : RuleEdit.setCondition text =
    onPart Rule.condition? Rule.withCondition fun _ =>
      ((), ·) <$> (Condition.ofText text).mapError .refused := by
  funext rule
  rw [RuleEdit.setCondition, onPart]
  rcases rule.condition? with _ | old
  · rfl
  · rcases Condition.ofText text with _ | condition <;> rfl

/-- Appending a moment to a rule is an edit of a part of it. -/
theorem appendKeyframe_eq (text : String) : RuleEdit.appendKeyframe text =
    onPart Rule.keyframes? Rule.withKeyframes fun frames =>
      (fun frame => ((), frames ++ [frame])) <$> (Keyframe.ofText text).mapError .refused := by
  funext rule
  rw [RuleEdit.appendKeyframe, onPart]
  rcases rule.keyframes? with _ | frames
  · rfl
  · rcases Keyframe.ofText text with _ | frame <;> rfl

end InPlace

/-! ### Calls -/

namespace EditCall

open InPlace

/-- What an operation makes of a copy of the list of rules it is asked of. -/
def Operation.edit (index : Nat) : Operation → List Rule → Edit (Answer × List Rule)
  | .insert text => fun rules =>
    Prod.map (fun _ => .index index) id <$> ((), ·) <$>
      (RuleList.insert index text rules).mapError .refused
  | .delete => fun rules => Prod.map .rule id <$> (RuleList.delete index rules).mapError .refused
  | .replace rule => fun rules =>
    Prod.map .rule id <$> (RuleList.replace index rule rules).mapError .refused
  | .setCondition text => fun rules =>
    Prod.map (fun _ => .done) id <$> onRule index (.setCondition text) rules
  | .appendKeyframe text => fun rules =>
    Prod.map (fun _ => .done) id <$> onRule index (.appendKeyframe text) rules

/-- Each operation in place follows its edit. -/
theorem Operation.perform_follows (operation : Operation) (index : Nat) :
    (operation.perform index).Follows (operation.edit index) := by
  cases operation with
  | insert text =>
    refine ((insertRule_follows text index).map _).of_eq fun rules => ?_
    simp only [Operation.edit]
    rcases RuleList.insert index text rules with _ | changed <;> rfl
  | delete => exact (deleteRule_follows index).map _
  | replace rule => exact (replaceRule_follows index rule).map _
  | setCondition text =>
    rw [Operation.edit, setCondition_eq]
    exact Follows.map (.within (set_getElem? index)
      (.within withCondition_condition (setCondition_follows text))) _
  | appendKeyframe text =>
    rw [Operation.edit, appendKeyframe_eq]
    exact Follows.map (.within (set_getElem? index)
      (.within withKeyframes_keyframes (appendKeyframe_follows text))) _

/-- What an edit of its rules makes of a style sheet. -/
def onSheet {α : Type} (edit : List Rule → Edit (α × List Rule)) :
    Stylesheet → Edit (α × Stylesheet) :=
  onPart (fun sheet => some sheet.rules) (fun rules _ => ⟨rules⟩) edit

/-- Editing the rules of a style sheet is editing its list along the path. -/
theorem editRules_eq {α : Type} (sheet : Stylesheet) (path : List Nat)
    (edit : List Rule → Edit (α × List Rule)) :
    sheet.editRules path edit = onSheet (RuleList.editRules edit path) sheet := by
  simp only [Stylesheet.editRules, onSheet, onPart]
  rcases RuleList.editRules edit path sheet.rules with _ | ⟨result, changed⟩ <;> rfl

/-- Editing a rule of a style sheet is editing the list that it stands in. -/
theorem editRule_eq {α : Type} (sheet : Stylesheet) (path : List Nat) (index : Nat)
    (edit : RuleEdit α) : sheet.editRule (path ++ [index]) edit =
      onSheet (RuleList.editRules (onRule index edit) path) sheet := by
  rw [Stylesheet.editRule, List.getLast?_concat, List.dropLast_concat, ← editRules_eq]
  refine congrArg (sheet.editRules path) (funext fun rules => ?_)
  rw [onRule, onPart]
  rcases rules[index]? with _ | rule
  · rfl
  · simp only
    rcases edit rule with _ | ⟨result, changed⟩ <;> rfl

/-- Inserting a rule answers with the index that it was asked to take. -/
theorem insertRule_eq (sheet : Stylesheet) (path : List Nat) (index : Nat) (text : String) :
    (Answer.index index, ·) <$> sheet.insertRule path index text =
      Prod.map (fun _ => Answer.index index) id <$> sheet.editRules path fun rules =>
        ((), ·) <$> (RuleList.insert index text rules).mapError .refused := by
  have hlist (edit : List Rule → Edit (Unit × List Rule)) (hedit : ∀ rules, edit rules =
      ((), ·) <$> (RuleList.insert index text rules).mapError .refused) :
      (Answer.index index, ·) <$> Prod.snd <$> sheet.editRules path edit =
        Prod.map (fun _ => Answer.index index) id <$> sheet.editRules path fun rules =>
          ((), ·) <$> (RuleList.insert index text rules).mapError .refused := by
    rw [← funext hedit]
    rcases sheet.editRules path edit with _ | ⟨_, changed⟩ <;> rfl
  refine hlist _ fun rules => ?_
  rcases RuleList.insert index text rules with _ | changed <;> rfl

/-- A call on a copy edits the list that its path leads to. -/
theorem edit_eq (call : EditCall) (sheet : Stylesheet) : call.edit sheet =
    onSheet (RuleList.editRules (call.operation.edit call.index) call.path) sheet := by
  have hmap {α : Type} (f : α → Answer) (edit : List Rule → Edit (α × List Rule)) :
      Prod.map f id <$> onSheet (RuleList.editRules edit call.path) sheet =
        onSheet (RuleList.editRules (fun rules => Prod.map f id <$> edit rules) call.path)
          sheet := by
    rw [editRules_map, onSheet, onSheet, onPart_map]
  obtain ⟨path, index, operation⟩ := call
  cases operation with
  | insert text => simp only [edit, insertRule_eq, editRules_eq, hmap]; rfl
  | delete => simp only [edit, Stylesheet.deleteRule, editRules_eq, hmap]; rfl
  | replace rule => simp only [edit, editRules_eq, hmap]; rfl
  | setCondition text => simp only [edit, editRule_eq, hmap]; rfl
  | appendKeyframe text => simp only [edit, editRule_eq, hmap]; rfl

/-- A call in place leaves behind what the edit makes of a copy, or the style sheet as it was. -/
theorem perform_follows (call : EditCall) : call.perform.Follows call.edit := by
  refine Follows.of_eq ?_ fun sheet => (call.edit_eq sheet).symm
  exact .within (fun _ _ h => by cases h; rfl)
    ((call.operation.perform_follows call.index).atList call.path)

end EditCall

end Cssom
