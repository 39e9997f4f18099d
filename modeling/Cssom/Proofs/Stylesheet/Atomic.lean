import Cssom.Proofs.Printing.Sources
import Cssom.Proofs.Stylesheet.InPlace

/-!
# Edits are atomic

What an operation does to the list of rules it is asked of is stated apart from how it is done:
`Alters` says how the list differs afterwards, `Refuses` why nothing is done, and one of them always
holds (`alters_or_refuses`). Along a path only the list at its end differs (`ChangesAt`). So calls
that follow each other have the outcomes, and leave the style sheet, that `Runs` describes call by
call (`edits_are_atomic`).
-/

namespace Cssom

/-! ### Texts that hold one thing -/

/-- A text holds something if a production reads it from the text's tokens, and no significant token
is left then. -/
def HoldsJust {α : Type} (p : Production (Option α)) (config : Config) (text : String) (a : α) :
    Prop :=
  ∃ after : Parser, p.run (.ofTokens (Token.tokenize text none) config) = (some a, after) ∧
    after.hasTokens = false

/-- A text is taken for what it holds, or is a syntax error. -/
theorem soleResult_cases {α : Type} (p : Production (Option α)) (config : Config)
    (text : String) :
    (∃ a, HoldsJust p config text a ∧
      soleResult text (p.run (.ofTokens (Token.tokenize text none) config)) = .ok a) ∨
    (∀ a, ¬ HoldsJust p config text a) ∧
      soleResult text (p.run (.ofTokens (Token.tokenize text none) config)) =
        .error (.placeless (.syntaxError text)) := by
  unfold HoldsJust
  rcases p.run (.ofTokens (Token.tokenize text none) config) with ⟨_ | a, after⟩
  · exact .inr ⟨by simp, rfl⟩
  · rw [soleResult]
    cases hleft : after.hasTokens with
    | false => exact .inl ⟨a, ⟨after, rfl, hleft⟩, rfl⟩
    | true => exact .inr ⟨by simp [hleft], rfl⟩

/-- A text is read as one thing just if it holds that thing and nothing else. -/
theorem soleResult_eq_ok_iff {α : Type} {p : Production (Option α)} {config : Config}
    {text : String} {a : α} :
    soleResult text (p.run (.ofTokens (Token.tokenize text none) config)) = .ok a ↔
      HoldsJust p config text a := by
  constructor
  · intro h
    rcases soleResult_cases p config text with ⟨b, hb, hok⟩ | ⟨-, herror⟩
    · exact Except.ok.inj (hok.symm.trans h) ▸ hb
    · exact absurd (herror.symm.trans h) (by simp)
  · rintro ⟨after, hrun, hleft⟩
    rw [hrun, soleResult, hleft]
    rfl

/-- A text that holds nothing of a sort is a syntax error, and the error shows the text. -/
theorem soleResult_eq_error {α : Type} {p : Production (Option α)} {config : Config}
    {text : String} (h : ∀ a, ¬ HoldsJust p config text a) :
    soleResult text (p.run (.ofTokens (Token.tokenize text none) config)) =
      .error (.placeless (.syntaxError text)) := by
  rcases soleResult_cases p config text with ⟨a, ha, -⟩ | ⟨-, herror⟩
  · exact absurd ha (h a)
  · exact herror

/-- A condition is read from a text by the production of conditions, under the strict
configuration. -/
theorem Condition.ofText_eq (text : String) : Condition.ofText text =
    soleResult text ((Grammar.condition (.ofConfig .strict)).run
      (.ofTokens (Token.tokenize text none) .strict)) := by
  rw [Condition.ofText, Token.scan_eq_tokenize]
  rfl

/-- A moment of an animation is read from a text by the production of moments, under the strict
configuration. -/
theorem Keyframe.ofText_eq (text : String) : Keyframe.ofText text =
    soleResult text ((Grammar.keyframe (.ofConfig .strict)).run
      (.ofTokens (Token.tokenize text none) .strict)) := by
  rw [Keyframe.ofText, Token.scan_eq_tokenize]
  rfl

/-! ### What an operation does to its list -/

namespace EditCall

open InPlace

/-- Whether an index is out of the range of a list of so many rules. A rule may be inserted behind
the last one. -/
def Operation.OutOfRange (index length : Nat) : Operation → Prop
  | .insert _ => length < index
  | .delete => length ≤ index
  | .replace _ => length ≤ index
  | .setCondition _ => False
  | .appendKeyframe _ => False

/-- How an operation that is done at an index changes a list of rules, and what it answers. -/
inductive Operation.Alters : Operation → Nat → Answer → List Rule → List Rule → Prop
  | insert {text : String} {rule : Rule} (before after : List Rule) :
    HoldsJust (Grammar.rule (.ofConfig .strict)) .strict text rule →
    Alters (.insert text) before.length (.index before.length)
      (before ++ after) (before ++ rule :: after)
  | delete {rule : Rule} (before after : List Rule) :
    Alters .delete before.length (.rule rule) (before ++ rule :: after) (before ++ after)
  | replace {rule old : Rule} (before after : List Rule) :
    Alters (.replace rule) before.length (.rule old)
      (before ++ old :: after) (before ++ rule :: after)
  | setCondition {text : String} {condition old : Condition} {nested : List Rule}
    (before after : List Rule) :
    HoldsJust (Grammar.condition (.ofConfig .strict)) .strict text condition →
    Alters (.setCondition text) before.length .done
      (before ++ .supports old nested :: after) (before ++ .supports condition nested :: after)
  | appendKeyframe {text name : String} {frame : Keyframe} {frames : List Keyframe}
    (before after : List Rule) :
    HoldsJust (Grammar.keyframe (.ofConfig .strict)) .strict text frame →
    Alters (.appendKeyframe text) before.length .done
      (before ++ .keyframes name frames :: after)
      (before ++ .keyframes name (frames ++ [frame]) :: after)

/-- Why an operation at an index is not done to a list of rules. The index is looked at before the
text is. -/
inductive Operation.Refuses : Operation → Nat → List Rule → EditFailure → Prop
  | outOfRange {operation : Operation} {index : Nat} {rules : List Rule} :
    operation.OutOfRange index rules.length →
    Refuses operation index rules (.refused (.placeless (.indexSize index rules.length)))
  | ruleText {text : String} {index : Nat} {rules : List Rule} : index ≤ rules.length →
    (∀ rule, ¬ HoldsJust (Grammar.rule (.ofConfig .strict)) .strict text rule) →
    Refuses (.insert text) index rules (.refused (.placeless (.syntaxError text)))
  | conditionText {text : String} {index : Nat} {rules nested : List Rule} {old : Condition} :
    rules[index]? = some (.supports old nested) →
    (∀ condition, ¬ HoldsJust (Grammar.condition (.ofConfig .strict)) .strict text condition) →
    Refuses (.setCondition text) index rules (.refused (.placeless (.syntaxError text)))
  | keyframeText {text name : String} {index : Nat} {rules : List Rule} {frames : List Keyframe} :
    rules[index]? = some (.keyframes name frames) →
    (∀ frame, ¬ HoldsJust (Grammar.keyframe (.ofConfig .strict)) .strict text frame) →
    Refuses (.appendKeyframe text) index rules (.refused (.placeless (.syntaxError text)))
  | noCondition {text : String} {index : Nat} {rules : List Rule} :
    (∀ condition nested, rules[index]? ≠ some (.supports condition nested)) →
    Refuses (.setCondition text) index rules .noTarget
  | noKeyframes {text : String} {index : Nat} {rules : List Rule} :
    (∀ name frames, rules[index]? ≠ some (.keyframes name frames)) →
    Refuses (.appendKeyframe text) index rules .noTarget

variable {operation : Operation} {index : Nat} {rules changed : List Rule} {answer : Answer}
  {failure : EditFailure}

/-- An operation that is refused for its index has one out of range. -/
theorem Operation.Refuses.outOfRange_of_indexSize {n length : Nat}
    (h : operation.Refuses index rules (.refused (.placeless (.indexSize n length)))) :
    operation.OutOfRange index rules.length := by
  cases h with
  | outOfRange hindex => exact hindex

/-! ### Lists cut at an index -/

/-- The rule behind so many others is the one at their number. -/
theorem getElem?_length (before after : List Rule) (rule : Rule) :
    (before ++ rule :: after)[before.length]? = some rule := by
  rw [List.getElem?_append_right (Nat.le_refl _), Nat.sub_self, List.getElem?_cons_zero]

/-- Setting a rule at the number of those before it changes that rule only. -/
theorem set_length (before after : List Rule) (old rule : Rule) :
    (before ++ old :: after).set before.length rule = before ++ rule :: after := by
  rw [List.set_append_right _ _ (Nat.le_refl _), Nat.sub_self, List.set_cons_zero]

/-- A rule inserted at the number of those before it stands behind them. -/
theorem insertIdx_length (before after : List Rule) (rule : Rule) :
    (before ++ after).insertIdx before.length rule = before ++ rule :: after := by
  induction before with
  | nil => rfl
  | cons first before ih => exact congrArg (first :: ·) ih

/-- Erasing a rule at the number of those before it leaves the others. -/
theorem eraseIdx_length (before after : List Rule) (rule : Rule) :
    (before ++ rule :: after).eraseIdx before.length = before ++ after := by
  rw [List.eraseIdx_append_of_length_le (Nat.le_refl _), Nat.sub_self, List.eraseIdx_cons_zero]

/-- A rule at an index stands behind as many other rules. -/
theorem exists_cut_of_getElem? {rule : Rule} (h : rules[index]? = some rule) :
    ∃ before after, rules = before ++ rule :: after ∧ index = before.length := by
  obtain ⟨hindex, rfl⟩ := List.getElem?_eq_some_iff.1 h
  refine ⟨rules.take index, rules.drop (index + 1), ?_, ?_⟩
  · rw [← List.drop_eq_getElem_cons hindex, List.take_append_drop]
  · rw [List.length_take, Nat.min_eq_left (Nat.le_of_lt hindex)]

/-! ### Operations -/

/-- What an operation is said to do is what it does. -/
theorem Operation.edit_of_alters (h : operation.Alters index answer rules changed) :
    operation.edit index rules = .ok (answer, changed) := by
  cases h with
  | insert before after htext =>
    have hread := (Rule.ofText_eq _ _).trans (soleResult_eq_ok_iff.2 htext)
    have hindex : ¬ (before ++ after).length < before.length := by simp
    simp only [Operation.edit, RuleList.insert, if_neg hindex, hread, ← insertIdx_length]
    rfl
  | delete before after =>
    simp only [Operation.edit, RuleList.delete, getElem?_length, eraseIdx_length]
    rfl
  | replace before after =>
    simp only [Operation.edit, RuleList.replace, getElem?_length, set_length]
    rfl
  | setCondition before after htext =>
    have hread := (Condition.ofText_eq _).trans (soleResult_eq_ok_iff.2 htext)
    simp only [Operation.edit, onRule, onPart, setCondition_eq, getElem?_length, Rule.condition?,
      hread, set_length]
    rfl
  | appendKeyframe before after htext =>
    have hread := (Keyframe.ofText_eq _).trans (soleResult_eq_ok_iff.2 htext)
    simp only [Operation.edit, onRule, onPart, appendKeyframe_eq, getElem?_length,
      Rule.keyframes?, hread, set_length]
    rfl

/-- What an operation is said to refuse is what it refuses. -/
theorem Operation.edit_of_refuses (h : operation.Refuses index rules failure) :
    operation.edit index rules = .error failure := by
  cases h with
  | outOfRange hindex =>
    cases operation with
    | insert text =>
      have hbeyond : rules.length < index := hindex
      simp only [Operation.edit, RuleList.insert, if_pos hbeyond]
      rfl
    | delete =>
      simp only [Operation.edit, RuleList.delete, List.getElem?_eq_none hindex]
      rfl
    | replace rule =>
      simp only [Operation.edit, RuleList.replace, List.getElem?_eq_none hindex]
      rfl
    | setCondition text => exact hindex.elim
    | appendKeyframe text => exact hindex.elim
  | ruleText hindex htext =>
    have hread := (Rule.ofText_eq _ _).trans (soleResult_eq_error htext)
    simp only [Operation.edit, RuleList.insert, if_neg (Nat.not_lt.2 hindex), hread]
    rfl
  | conditionText hrule htext =>
    have hread := (Condition.ofText_eq _).trans (soleResult_eq_error htext)
    simp only [Operation.edit, onRule, onPart, setCondition_eq, hrule, Rule.condition?, hread]
    rfl
  | keyframeText hrule htext =>
    have hread := (Keyframe.ofText_eq _).trans (soleResult_eq_error htext)
    simp only [Operation.edit, onRule, onPart, appendKeyframe_eq, hrule, Rule.keyframes?, hread]
    rfl
  | noCondition hrule =>
    simp only [Operation.edit, setCondition_eq, onRule, onPart]
    rcases hget : rules[index]? with _ | rule
    · rfl
    · cases rule <;> first | rfl | exact absurd hget (hrule _ _)
  | noKeyframes hrule =>
    simp only [Operation.edit, appendKeyframe_eq, onRule, onPart]
    rcases hget : rules[index]? with _ | rule
    · rfl
    · cases rule <;> first | rfl | exact absurd hget (hrule _ _)

/-- An operation changes its list or is refused. -/
theorem Operation.alters_or_refuses (operation : Operation) (index : Nat) (rules : List Rule) :
    (∃ answer changed, operation.Alters index answer rules changed) ∨
      ∃ failure, operation.Refuses index rules failure := by
  cases operation with
  | insert text =>
    rcases Nat.lt_or_ge rules.length index with hindex | hindex
    · exact .inr ⟨_, .outOfRange hindex⟩
    · rcases soleResult_cases (Grammar.rule (.ofConfig .strict)) .strict text with
        ⟨rule, htext, -⟩ | ⟨htext, -⟩
      · have halters := Alters.insert (rules.take index) (rules.drop index) htext
        rw [List.take_append_drop] at halters
        exact .inl ⟨_, _, by simpa [Nat.min_eq_left hindex] using halters⟩
      · exact .inr ⟨_, .ruleText hindex htext⟩
  | delete =>
    rcases hget : rules[index]? with _ | rule
    · exact .inr ⟨_, .outOfRange (List.getElem?_eq_none_iff.1 hget)⟩
    · obtain ⟨before, after, rfl, rfl⟩ := exists_cut_of_getElem? hget
      exact .inl ⟨_, _, .delete before after⟩
  | replace new =>
    rcases hget : rules[index]? with _ | old
    · exact .inr ⟨_, .outOfRange (List.getElem?_eq_none_iff.1 hget)⟩
    · obtain ⟨before, after, rfl, rfl⟩ := exists_cut_of_getElem? hget
      exact .inl ⟨_, _, .replace before after⟩
  | setCondition text =>
    by_cases hrule : ∃ old nested, rules[index]? = some (.supports old nested)
    · obtain ⟨old, nested, hget⟩ := hrule
      rcases soleResult_cases (Grammar.condition (.ofConfig .strict)) .strict text with
        ⟨condition, htext, -⟩ | ⟨htext, -⟩
      · obtain ⟨before, after, rfl, rfl⟩ := exists_cut_of_getElem? hget
        exact .inl ⟨_, _, .setCondition before after htext⟩
      · exact .inr ⟨_, .conditionText hget htext⟩
    · exact .inr ⟨_, .noCondition fun old nested hget => hrule ⟨old, nested, hget⟩⟩
  | appendKeyframe text =>
    by_cases hrule : ∃ name frames, rules[index]? = some (.keyframes name frames)
    · obtain ⟨name, frames, hget⟩ := hrule
      rcases soleResult_cases (Grammar.keyframe (.ofConfig .strict)) .strict text with
        ⟨frame, htext, -⟩ | ⟨htext, -⟩
      · obtain ⟨before, after, rfl, rfl⟩ := exists_cut_of_getElem? hget
        exact .inl ⟨_, _, .appendKeyframe before after htext⟩
      · exact .inr ⟨_, .keyframeText hget htext⟩
    · exact .inr ⟨_, .noKeyframes fun name frames hget => hrule ⟨name, frames, hget⟩⟩

/-! ### Along a path -/

/-- A list of rules changes somewhere inside: the list that a path leads to changes, and around it
every rule stands where it stood, the groups on the path with all but the rules inside of them. -/
inductive ChangesAt (change : List Rule → List Rule → Prop) :
    List Nat → List Rule → List Rule → Prop
  | here {rules changed : List Rule} : change rules changed → ChangesAt change [] rules changed
  | inside {path : List Nat} {rule : Rule} {nested changed : List Rule}
    (before after : List Rule) : rule.nested? = some nested →
    ChangesAt change path nested changed →
    ChangesAt change (before.length :: path)
      (before ++ rule :: after) (before ++ rule.withNested changed :: after)

variable {path : List Nat} {target : List Rule} {edit : List Rule → Edit (Answer × List Rule)}

/-- Where the list at the end of a path changes as an edit says, the edit along the path can be
done. -/
theorem ChangesAt.editRules
    (h : ChangesAt (fun rules changed => edit rules = .ok (answer, changed)) path rules changed) :
    RuleList.editRules edit path rules = .ok (answer, changed) := by
  induction h with
  | here hedit => exact hedit
  | inside before after hnested _ ih =>
    simp only [RuleList.editRules, getElem?_length, hnested, ih, set_length, bind, Except.bind]
    rfl

/-- A list changes along a path in any way that is implied at its end. -/
theorem ChangesAt.imp {change other : List Rule → List Rule → Prop}
    (h : ChangesAt change path rules changed) (himp : ∀ rules changed, change rules changed →
      other rules changed) : ChangesAt other path rules changed := by
  induction h with
  | here hchange => exact .here (himp _ _ hchange)
  | inside before after hnested _ ih => exact .inside before after hnested ih

/-- If the list that a path leads to can change, the whole can. -/
theorem exists_changesAt {change : List Rule → List Rule → Prop} {altered : List Rule}
    (htarget : RuleList.rulesAt? path rules = some target) (h : change target altered) :
    ∃ changed, ChangesAt change path rules changed := by
  induction path generalizing rules with
  | nil =>
    cases htarget
    exact ⟨altered, .here h⟩
  | cons index path ih =>
    obtain ⟨rule, hrule, hrest⟩ := Option.bind_eq_some_iff.1 htarget
    obtain ⟨nested, hnested, hinner⟩ := Option.bind_eq_some_iff.1 hrest
    obtain ⟨before, after, rfl, rfl⟩ := exists_cut_of_getElem? hrule
    obtain ⟨changed, hchanged⟩ := ih hinner
    exact ⟨_, .inside before after hnested hchanged⟩

/-- An edit at the end of a path that leads nowhere has no target. -/
theorem editRules_of_none (h : RuleList.rulesAt? path rules = none) :
    RuleList.editRules edit path rules = .error .noTarget := by
  induction path generalizing rules with
  | nil => cases h
  | cons index path ih =>
    simp only [RuleList.editRules]
    rcases hrule : rules[index]? with _ | rule
    · rfl
    · rcases hnested : rule.nested? with _ | nested
      · simp only [hnested]
      · have hinner : RuleList.rulesAt? path nested = none := by
          simpa [RuleList.rulesAt?, hrule, hnested] using h
        simp only [hnested, ih hinner]
        rfl

/-- An edit that cannot be done at the end of a path cannot be done along it. -/
theorem editRules_of_error (htarget : RuleList.rulesAt? path rules = some target)
    (hedit : edit target = .error failure) :
    RuleList.editRules edit path rules = .error failure := by
  induction path generalizing rules with
  | nil =>
    cases htarget
    exact hedit
  | cons index path ih =>
    obtain ⟨rule, hrule, hrest⟩ := Option.bind_eq_some_iff.1 htarget
    obtain ⟨nested, hnested, hinner⟩ := Option.bind_eq_some_iff.1 hrest
    simp only [RuleList.editRules, hrule, hnested, ih hinner]
    rfl

/-! ### Calls -/

/-- A call changes the list that its path leads to. -/
def Changes (call : EditCall) (sheet : Stylesheet) (answer : Answer) (changed : Stylesheet) :
    Prop :=
  ChangesAt (call.operation.Alters call.index answer) call.path sheet.rules changed.rules

/-- Why a call is not done. -/
inductive Fails (call : EditCall) (sheet : Stylesheet) : EditFailure → Prop
  | noList : sheet.rulesAt? call.path = none → Fails call sheet .noTarget
  | refused {target : List Rule} {failure : EditFailure} :
    sheet.rulesAt? call.path = some target →
    call.operation.Refuses call.index target failure → Fails call sheet failure

variable {call : EditCall} {sheet next : Stylesheet}

/-- A call is done as the edit of its operation along its path. -/
theorem run_perform (call : EditCall) (sheet : Stylesheet) : call.perform.run sheet = outcome sheet
    (onSheet (RuleList.editRules (call.operation.edit call.index) call.path) sheet) := by
  rw [call.perform_follows sheet, call.edit_eq]

/-- A call answers and leaves the style sheet as it says how it changes it. -/
theorem run_perform_of_changes (h : call.Changes sheet answer next) :
    call.perform.run sheet = .ok answer next := by
  have hedit := (h.imp fun _ _ => Operation.edit_of_alters).editRules
  simp only [run_perform, onSheet, onPart, hedit]
  rfl

/-- A call that fails leaves the style sheet as it was. -/
theorem run_perform_of_fails (h : call.Fails sheet failure) :
    call.perform.run sheet = .error failure sheet := by
  have hedit : RuleList.editRules (call.operation.edit call.index) call.path sheet.rules =
      .error failure := by
    cases h with
    | noList hnone => exact editRules_of_none hnone
    | refused htarget hrefuses =>
      exact editRules_of_error htarget (Operation.edit_of_refuses hrefuses)
  simp only [run_perform, onSheet, onPart, hedit]
  rfl

/-- A call changes the list that its path leads to, or fails. -/
theorem changes_or_fails (call : EditCall) (sheet : Stylesheet) :
    (∃ answer next, call.Changes sheet answer next) ∨ ∃ failure, call.Fails sheet failure := by
  rcases htarget : sheet.rulesAt? call.path with _ | target
  · exact .inr ⟨_, .noList htarget⟩
  · rcases call.operation.alters_or_refuses call.index target with
      ⟨answer, altered, halters⟩ | ⟨failure, hrefuses⟩
    · obtain ⟨changed, hchanged⟩ := exists_changesAt htarget halters
      exact .inl ⟨answer, ⟨changed⟩, hchanged⟩
    · exact .inr ⟨failure, .refused htarget hrefuses⟩

/-- A call answers just if it changes the style sheet so. -/
theorem run_perform_eq_ok_iff :
    call.perform.run sheet = .ok answer next ↔ call.Changes sheet answer next := by
  -- One of the two descriptions holds, and each of them fixes what the call gives.
  refine ⟨fun h => ?_, run_perform_of_changes⟩
  rcases call.changes_or_fails sheet with ⟨_, _, hchanges⟩ | ⟨_, hfails⟩
  · have heq := (run_perform_of_changes hchanges).symm.trans h
    cases heq
    exact hchanges
  · have heq := (run_perform_of_fails hfails).symm.trans h
    cases heq

/-- A call fails just if it says why, and then the style sheet is the same. -/
theorem run_perform_eq_error_iff :
    call.perform.run sheet = .error failure next ↔ next = sheet ∧ call.Fails sheet failure := by
  constructor
  · intro h
    rcases call.changes_or_fails sheet with ⟨_, _, hchanges⟩ | ⟨_, hfails⟩
    · have heq := (run_perform_of_changes hchanges).symm.trans h
      cases heq
    · have heq := (run_perform_of_fails hfails).symm.trans h
      cases heq
      exact ⟨rfl, hfails⟩
  · rintro ⟨rfl, hfails⟩
    exact run_perform_of_fails hfails

/-- Calls that follow each other: each changes the list that its path leads to and answers, or fails
and leaves the style sheet as it was. -/
inductive Runs : Stylesheet → List EditCall → List (Except EditFailure Answer) → Stylesheet → Prop
  | nil {sheet : Stylesheet} : Runs sheet [] [] sheet
  | changed {sheet next last : Stylesheet} {call : EditCall} {calls : List EditCall}
    {answer : Answer} {outcomes : List (Except EditFailure Answer)} :
    call.Changes sheet answer next → Runs next calls outcomes last →
    Runs sheet (call :: calls) (.ok answer :: outcomes) last
  | failed {sheet last : Stylesheet} {call : EditCall} {calls : List EditCall}
    {failure : EditFailure} {outcomes : List (Except EditFailure Answer)} :
    call.Fails sheet failure → Runs sheet calls outcomes last →
    Runs sheet (call :: calls) (.error failure :: outcomes) last

/-- Calls leave outcomes and a style sheet just if they run so, one by one. -/
theorem performAll_eq_iff {calls : List EditCall} {outcomes : List (Except EditFailure Answer)}
    {last : Stylesheet} :
    performAll calls sheet = (outcomes, last) ↔ Runs sheet calls outcomes last := by
  induction calls generalizing sheet outcomes with
  | nil =>
    constructor
    · rintro h
      cases h
      exact .nil
    · rintro ⟨⟩
      rfl
  | cons call calls ih =>
    rw [performAll]
    constructor
    · intro h
      rcases hcall : call.perform.run sheet with ⟨answer, next⟩ | ⟨failure, next⟩
      · rw [hcall] at h
        cases h
        exact .changed (run_perform_eq_ok_iff.1 hcall) (ih.1 rfl)
      · rw [hcall] at h
        cases h
        obtain ⟨rfl, hfails⟩ := run_perform_eq_error_iff.1 hcall
        exact .failed hfails (ih.1 rfl)
    · intro h
      cases h with
      | changed hchanges hrest =>
        rw [run_perform_of_changes hchanges]
        simp only [ih.2 hrest]
      | failed hfails hrest =>
        rw [run_perform_of_fails hfails]
        simp only [ih.2 hrest]

/-- A call fails for its index exactly when this is out of the range of the list that its path leads
to, whatever its text. -/
theorem fails_indexSize_iff :
    (∃ index length, call.Fails sheet (.refused (.placeless (.indexSize index length)))) ↔
      ∃ target, sheet.rulesAt? call.path = some target ∧
        call.operation.OutOfRange call.index target.length := by
  constructor
  · rintro ⟨index, length, hfails⟩
    cases hfails with
    | refused htarget hrefuses => exact ⟨_, htarget, hrefuses.outOfRange_of_indexSize⟩
  · rintro ⟨target, htarget, hindex⟩
    exact ⟨_, _, .refused htarget (.outOfRange hindex)⟩

end EditCall

/-- Edits in place are atomic. Whatever calls follow each other on a style sheet, each changes just
the list of rules that its path leads to, and in it what its operation is for, or it fails and
leaves the style sheet as it was; what each of them gives and leaves is what the edit of a copy
does. An index is refused exactly when it is out of range, and a text taken exactly when it holds
one rule, condition or moment, and no significant token more. -/
theorem edits_are_atomic :
    (∀ sheet calls outcomes last,
      EditCall.performAll calls sheet = (outcomes, last) ↔
        EditCall.Runs sheet calls outcomes last) ∧
    (∀ (call : EditCall) sheet,
      call.perform.run sheet = InPlace.outcome sheet (call.edit sheet) ∧
      ((∃ index length, call.perform.run sheet =
          .error (.refused (.placeless (.indexSize index length))) sheet) ↔
        ∃ target, sheet.rulesAt? call.path = some target ∧
          call.operation.OutOfRange call.index target.length)) ∧
    (∀ text config rule, Rule.ofText text config = .ok rule ↔
      HoldsJust (Grammar.rule (.ofConfig config)) config text rule) ∧
    (∀ text condition, Condition.ofText text = .ok condition ↔
      HoldsJust (Grammar.condition (.ofConfig .strict)) .strict text condition) ∧
    (∀ text frame, Keyframe.ofText text = .ok frame ↔
      HoldsJust (Grammar.keyframe (.ofConfig .strict)) .strict text frame) := by
  refine ⟨fun _ _ _ _ => EditCall.performAll_eq_iff,
    fun call sheet => ⟨call.perform_follows sheet, ?_⟩, fun text config rule => ?_,
    fun text condition => ?_, fun text frame => ?_⟩
  · simp only [EditCall.run_perform_eq_error_iff, true_and]
    exact EditCall.fails_indexSize_iff
  · rw [Rule.ofText_eq, soleResult_eq_ok_iff]
  · rw [Condition.ofText_eq, soleResult_eq_ok_iff]
  · rw [Keyframe.ofText_eq, soleResult_eq_ok_iff]

/-- The second call and the third leave nothing behind. -/
example :
    let tokens := Token.tokenize "@media print \x7b a \x7b\x7d \x7d" none
    let sheet := (Stylesheet.parse tokens .strict).1
    (EditCall.performAll [⟨[0], 1, .insert "b \x7b\x7d"⟩, ⟨[0], 0, .insert "c \x7b\x7d d"⟩,
      ⟨[], 0, .setCondition "(color: red)"⟩, ⟨[0], 0, .delete⟩] sheet).2.render =
        "@media print \x7b b \x7b \x7d \x7d" := by
  decide +kernel

end Cssom
