import Cssom.Proofs.Recovery.Slips

/-!
# Which rules leave their block

A rule leaves the braces it stands in exactly if it slips (`escapes_rule`): for each kind of rule,
its prelude stays in the braces, and then it finds its block, or ends, or is passed over from
there. The rules inside of a rule are shorter, so the proof is by induction on the number of tokens
ahead.
-/

namespace Cssom.Grammar

open Production Token

variable {ctx : Context} {close : Lexeme} {after : List Lexeme} {braces : Nat} {input : Input}

/-! ### Unknown rules -/

/-- What is kept before the block of an unknown rule goes on through closing braces; the block
itself ends where its brace closes. -/
theorem escapes_unknown (hclose : close.token.kind = .closeCurly) (rounds : Nat)
    (kept : List Token) (hr : input.size ≤ rounds) (h : Inside (close :: after) braces input) :
    Escapes (Unended input.ahead) close after braces
      (unknownBlock.read ((unknownPreambleFrom rounds kept).read input).rest).rest := by
  induction rounds generalizing braces kept input with
  | zero =>
    have hpos := h.size_pos
    omega
  | succ rounds ih =>
    have hsize := size_advance_le hr
    rw [unknownPreambleFrom]
    simp only [rest_read_bind, read_view]
    by_cases hends : endsUnknownPreamble input.view.kind = true
    · simp only [hends, if_true, read_pure]
      simp only [endsUnknownPreamble, Bool.or_eq_true, beq_iff_eq] at hends
      rcases hends.resolve_right h.kind_ne_eof with ho | hsemi
      · refine ⟨fun hu => absurd hu (not_unended_of_open h ho), fun _ => ?_⟩
        rw [unknownBlock, rest_read_bind, read_view]
        simp only [ho, rest_read_bind, read_skip, read_pure]
        refine unknownBlockFrom_inside hclose [] ?_ (h.advance_open hclose ho)
        exact size_advance_le (Nat.le_succ_of_le (Nat.le_refl _))
      · refine ⟨fun hu => ?_, fun _ => ?_⟩
        · obtain ⟨lexeme, rest, hahead, hk, _⟩ := exists_ahead_eq h.ahead_ne_nil
          rw [hahead, unended_cons (by rw [← hk, hsemi]; decide)] at hu
          exact absurd (hk ▸ hsemi) hu.1
        · rw [unknownBlock, rest_read_bind, read_view]
          simp only [hsemi, rest_read_bind, read_skip, read_pure]
          exact h.advance hclose (by rw [hsemi]; decide) (by rw [hsemi]; decide)
    · simp only [hends, Bool.false_eq_true, if_false, rest_read_bind, read_keepToken]
      simp only [endsUnknownPreamble, Bool.or_eq_true, beq_iff_eq, not_or] at hends
      by_cases hc : input.view.kind = .closeCurly
      · have hu : Unended input.ahead := by
          obtain ⟨lexeme, rest, hahead, hk, _⟩ := exists_ahead_eq h.ahead_ne_nil
          rw [hahead]
          exact unended_of_close (hk ▸ hc)
        refine ⟨fun _ => ?_, fun hn => absurd hu hn⟩
        rcases h.left_of_close hc with ⟨fewer, hlt, hin⟩ | hbeyond
        · rcases (ih _ hsize hin).or with hstay | hleft
          · exact Or.inl ⟨fewer, hlt, hstay⟩
          · exact hleft.mono (Nat.le_of_lt hlt)
        · exact Or.inr (hbeyond.of_reaches ((read_reaches _ _).trans (read_reaches _ _)))
      · exact (ih _ hsize (h.advance hclose hends.1.1 hc)).congr
          (unended_advance h hc hends.1.1 hends.1.2)

/-! ### Rules -/

/-- A rule for media slips with the rules of its block, if it finds one. -/
theorem ruleSlips_of_media (hbody : body ctx input = .media) :
    RuleSlips ctx input ↔ (afterPrelude ctx input).view.kind = .openCurly ∧
      RulesSlip ctx (afterPrelude ctx input).advance := by
  constructor
  · intro h
    cases h with
    | unended hother => exact absurd hbody hother
    | rules _ opens slips => exact ⟨opens, slips⟩
    | moments hmoments => simp [hbody] at hmoments
  · rintro ⟨opens, slips⟩
    exact .rules (Or.inl hbody) opens slips

/-- A rule that holds rules slips with them, or where it looks for its block in vain. -/
theorem ruleSlips_of_rules (hbody : body ctx input = .rules) :
    RuleSlips ctx input ↔ Unended (afterPrelude ctx input).ahead ∨
      (afterPrelude ctx input).view.kind = .openCurly ∧
        RulesSlip ctx (afterPrelude ctx input).advance := by
  constructor
  · intro h
    cases h with
    | unended _ unended => exact Or.inl unended
    | rules _ opens slips => exact Or.inr ⟨opens, slips⟩
    | moments hmoments => simp [hbody] at hmoments
  · rintro (unended | ⟨opens, slips⟩)
    · exact .unended (by rw [hbody]; decide) unended
    · exact .rules (Or.inr hbody) opens slips

/-- An animation slips with its moments, or where it looks for its block in vain. -/
theorem ruleSlips_of_moments (hbody : body ctx input = .moments) :
    RuleSlips ctx input ↔ Unended (afterPrelude ctx input).ahead ∨
      (afterPrelude ctx input).view.kind = .openCurly ∧
        MomentsSlip ctx (afterPrelude ctx input).advance := by
  constructor
  · intro h
    cases h with
    | unended _ unended => exact Or.inl unended
    | rules hrules => simp [hbody] at hrules
    | moments _ opens slips => exact Or.inr ⟨opens, slips⟩
  · rintro (unended | ⟨opens, slips⟩)
    · exact .unended (by rw [hbody]; decide) unended
    · exact .moments hbody opens slips

/-- Any other rule slips where it looks for its block, or for its end, in vain. -/
theorem ruleSlips_of_other (hbody : body ctx input = .other) :
    RuleSlips ctx input ↔ Unended (afterPrelude ctx input).ahead := by
  constructor
  · intro h
    cases h with
    | unended _ unended => exact unended
    | rules hrules => simp [hbody] at hrules
    | moments hmoments => simp [hbody] at hmoments
  · intro h
    exact .unended (by rw [hbody]; decide) h

/-- A rule has the body of its kind just if its prelude was found. -/
theorem ruleSlips_of_prelude {b : Body} {Slips : Prop} {found : Bool}
    (hbody : body ctx input = if found then b else .other)
    (hslips : body ctx input = b →
      (RuleSlips ctx input ↔ Unended (afterPrelude ctx input).ahead ∨ Slips)) :
    RuleSlips ctx input ↔ Unended (afterPrelude ctx input).ahead ∨ found = true ∧ Slips := by
  cases found with
  | true => simpa using hslips hbody
  | false => simpa using ruleSlips_of_other hbody

/-! ### What slipping means for each at-keyword -/

/-- A rule is read up to its block as its at-keyword says. -/
theorem read_prelude_of_atKeyword (hk : input.view.kind = .atKeyword) {keyword : AtKeyword}
    (hname : AtKeyword.ofName input.view.token.name = keyword) :
    (prelude ctx).read input = (atPrelude ctx keyword).read input.advance := by
  rw [prelude, read_bind]
  simp only [read_view, hk, hname, read_bind, read_skip, List.nil_append]

section

variable {keyword : AtKeyword} (hk : input.view.kind = .atKeyword)
  (hname : AtKeyword.ofName input.view.token.name = keyword)

include hk hname

/-- The block of an at-rule holds what its at-keyword says. -/
theorem body_of_atKeyword :
    body ctx input = ((atPrelude ctx keyword).read input.advance).result := by
  rw [body, read_prelude_of_atKeyword hk hname]

/-- The block of an at-rule should open where its at-keyword says. -/
theorem afterPrelude_of_atKeyword :
    afterPrelude ctx input = ((atPrelude ctx keyword).read input.advance).rest := by
  rw [afterPrelude, read_prelude_of_atKeyword hk hname]

/-- A rule whose block stands right behind its at-keyword slips where that block, or an end, is
looked for in vain. -/
theorem ruleSlips_of_bare (hbare : atPrelude ctx keyword = pure .other) :
    RuleSlips ctx input ↔ Unended input.advance.ahead := by
  have hbody : body ctx input = .other := by
    rw [body_of_atKeyword hk hname, hbare, read_pure]
  rw [ruleSlips_of_other hbody, afterPrelude_of_atKeyword hk hname, hbare, read_pure]

end

/-- A page rule looks for its block behind the selector of its pages. -/
theorem ruleSlips_of_page (hk : input.view.kind = .atKeyword)
    (hname : AtKeyword.ofName input.view.token.name = .page) :
    RuleSlips ctx input ↔
      Unended ((pageSelectorFrom input.advance.size "").read input.advance).rest.ahead := by
  have hview : input.advance.view.size = input.advance.size := rfl
  have hbody : body ctx input = .other := by
    rw [body_of_atKeyword hk hname, atPrelude, result_read_bind, result_read_bind, read_pure]
  rw [ruleSlips_of_other hbody, afterPrelude_of_atKeyword hk hname, atPrelude, rest_read_bind,
    read_view, rest_read_bind, read_pure, hview]

/-- An animation looks for its block behind its name, and for moments in it if it has a name. -/
theorem ruleSlips_of_keyframes (hk : input.view.kind = .atKeyword)
    (hname : AtKeyword.ofName input.view.token.name = .keyframes) :
    RuleSlips ctx input ↔ Unended (animationName.read input.advance).rest.ahead ∨
      (animationName.read input.advance).result.isSome = true ∧
        (animationName.read input.advance).rest.view.kind = .openCurly ∧
          MomentsSlip ctx (animationName.read input.advance).rest.advance := by
  have hbody : body ctx input =
      if (animationName.read input.advance).result.isSome then .moments else .other := by
    rw [body_of_atKeyword hk hname, atPrelude, result_read_bind, read_pure]
  rw [ruleSlips_of_prelude hbody ruleSlips_of_moments, afterPrelude_of_atKeyword hk hname,
    atPrelude, rest_read_bind, read_pure]

/-- A rule on what is supported looks for its block behind its condition, and for rules in it if
the condition is valid. -/
theorem ruleSlips_of_supports (hk : input.view.kind = .atKeyword)
    (hname : AtKeyword.ofName input.view.token.name = .supports) :
    RuleSlips ctx input ↔ Unended ((supportsCondition ctx).read input.advance).rest.ahead ∨
      ((supportsCondition ctx).read input.advance).result.isSome = true ∧
        ((supportsCondition ctx).read input.advance).rest.view.kind = .openCurly ∧
          RulesSlip ctx ((supportsCondition ctx).read input.advance).rest.advance := by
  have hbody : body ctx input =
      if ((supportsCondition ctx).read input.advance).result.isSome then .rules else .other := by
    rw [body_of_atKeyword hk hname, atPrelude, result_read_bind, read_pure]
  rw [ruleSlips_of_prelude hbody ruleSlips_of_rules, afterPrelude_of_atKeyword hk hname,
    atPrelude, rest_read_bind, read_pure]

/-- A rule for documents looks for its block behind its functions, and for rules in it if these
are valid. -/
theorem ruleSlips_of_document (hk : input.view.kind = .atKeyword)
    (hname : AtKeyword.ofName input.view.token.name = .document) :
    let functions := (documentFunctionsFrom (input.advance.size + 1) []).read input.advance
    RuleSlips ctx input ↔ Unended functions.rest.ahead ∨
      functions.result.isSome = true ∧ functions.rest.view.kind = .openCurly ∧
        RulesSlip ctx functions.rest.advance := by
  intro functions
  have hview : input.advance.view.size = input.advance.size := rfl
  have hbody : body ctx input = if functions.result.isSome then .rules else .other := by
    rw [body_of_atKeyword hk hname, atPrelude, result_read_bind, read_view, result_read_bind,
      read_pure, hview]
  rw [ruleSlips_of_prelude hbody ruleSlips_of_rules, afterPrelude_of_atKeyword hk hname,
    atPrelude, rest_read_bind, read_view, rest_read_bind, read_pure, hview]

/-- A rule for media slips with the rules of its block, if its media list is followed by one. -/
theorem ruleSlips_of_mediaKeyword (hk : input.view.kind = .atKeyword)
    (hname : AtKeyword.ofName input.view.token.name = .media) :
    RuleSlips ctx input ↔
      ((atPrelude ctx .media).read input.advance).rest.view.kind = .openCurly ∧
        RulesSlip ctx ((atPrelude ctx .media).read input.advance).rest.advance := by
  have hbody : body ctx input = .media := by
    rw [body_of_atKeyword hk hname, atPrelude, result_read_bind]
    split <;> rw [result_read_bind, read_pure]
  rw [ruleSlips_of_media hbody, afterPrelude_of_atKeyword hk hname]

/-! ### What is read behind each at-keyword -/

/-- A rule that holds no rules slips where it looks for its block, or for its end, in vain. -/
theorem escapes_other {rest : Input} (hbody : body ctx input = .other)
    (h : Escapes (Unended (afterPrelude ctx input).ahead) close after braces rest) :
    Escapes (RuleSlips ctx input) close after braces rest :=
  h.congr (ruleSlips_of_other hbody).symm

/-- A rule that is a block of declarations stops where that does. -/
theorem rest_read_blockRule (set : BlockKind) (make : Block → Rule) (input : Input) :
    ((blockRule ctx set make).read input).rest = ((declarationBlock ctx set).read input).rest := by
  rw [blockRule, rest_read_bind, read_pure]

/-- A rule of declarations looks for its block where it stands. -/
theorem escapes_blockRule {set : BlockKind} {make : Block → Rule}
    (hclose : close.token.kind = .closeCurly) (h : Inside (close :: after) braces input) :
    Escapes (Unended input.ahead) close after braces
      ((blockRule ctx set make).read input).rest := by
  rw [rest_read_blockRule]
  exact escapes_declarationBlock ctx set hclose h

/-- Behind its selector, a page rule looks for its block. -/
theorem escapes_pageRule (hclose : close.token.kind = .closeCurly)
    (h : Inside (close :: after) braces input) :
    Escapes (Unended ((pageSelectorFrom input.size "").read input).rest.ahead) close after braces
      ((pageRule ctx).read input).rest := by
  rw [pageRule, rest_read_bind, read_view, rest_read_bind]
  exact escapes_blockRule hclose ((stays_pageSelectorFrom _ _).inside hclose h)

/-- Whether an unknown rule is kept or passed over, it goes on to its block or its end. -/
theorem escapes_unknownRule {name : String} {start : Position}
    (hclose : close.token.kind = .closeCurly) (h : Inside (close :: after) braces input) :
    Escapes (Unended input.ahead) close after braces
      ((unknownRule ctx name start).read input).rest := by
  by_cases hkeep : ctx.config.keepUnknownRules = true
  · simp only [unknownRule, hkeep, if_true, rest_read_bind, read_view, read_pure]
    exact escapes_unknown hclose _ [] (Nat.le_refl _) h
  · simp only [unknownRule, hkeep, Bool.false_eq_true, if_false, rest_read_bind,
      read_complainAt, read_pure]
    exact escapes_passRule hclose h

/-- Behind its name, an animation looks for its block. -/
theorem escapes_keyframesRule (hclose : close.token.kind = .closeCurly)
    (h : Inside (close :: after) braces input) :
    Escapes (Unended (animationName.read input).rest.ahead ∨
        (animationName.read input).result.isSome = true ∧
          (animationName.read input).rest.view.kind = .openCurly ∧
            MomentsSlip ctx (animationName.read input).rest.advance) close after braces
      ((keyframesRule ctx).read input).rest := by
  have hin := stays_animationName.inside hclose h
  rw [keyframesRule, rest_read_bind]
  rcases hname : (animationName.read input).result with _ | name
  · simp only [rest_read_bind, read_complainOf, read_pure]
    refine (escapes_passRule hclose hin).congr ?_
    simp
  · simp only [rest_read_bind]
    by_cases ho : (animationName.read input).rest.view.kind = .openCurly
    · rw [read_blockOpening_of_open ho]
      simp only [if_true, rest_read_bind, read_pure]
      obtain ⟨hescapes, hstop⟩ := escapes_keyframes ctx hclose (hin.advance_open hclose ho)
      refine (escapes_blockClosing hescapes hstop).congr ?_
      simp [ho, not_unended_of_open hin ho]
    · obtain ⟨hresult, hrest⟩ := read_blockOpening_of_ne ho
      rw [hresult, hrest]
      simp only [Bool.false_eq_true, if_false, read_pure]
      refine (escapes_passRule hclose hin).congr ?_
      simp [ho]

section

variable (hclose : close.token.kind = .closeCurly) {bound : Nat}
  (hrule : ∀ braces i, i.size ≤ bound → Inside (close :: after) braces i →
    i.view.kind ≠ .closeCurly →
    Escapes (RuleSlips ctx i) close after braces ((rule ctx).read i).rest)

include hrule

/-- If short rules slip as said, so do the rules of a short block. -/
theorem escapes_rulesOf (hs : input.size ≤ bound) (h : Inside (close :: after) braces input) :
    Escapes (RulesSlip ctx input) close after braces ((rulesOf (rule ctx)).read input).rest ∧
      (((rulesOf (rule ctx)).read input).rest.view.kind = .closeCurly ∨
        ((rulesOf (rule ctx)).read input).rest.view.kind = .eof) := by
  have hruns := Loop.rules_runs ctx (.ofInput input false)
  have hrest : ((rulesOf (rule ctx)).run (.ofInput input false)).2.input =
      ((rulesOf (rule ctx)).read input).rest := run_rest _ _
  rw [← hrest]
  refine ⟨?_, ?_⟩
  · refine escapes_of_runs bound (fun _ => rfl) ?_ rulesSlip_iff hrule hruns hs h
    intro s _
    rw [Loop.afterRound, Loop.round, run_discard]
    exact run_rest _ _
  · have hstop := hruns.stops
    simpa [Loop.stops, Parser.view] using hstop

include hclose

/-- A block of rules, behind its opening brace. -/
theorem escapes_rules_block (hs : input.advance.size ≤ bound)
    (h : Inside (close :: after) braces input) (ho : input.view.kind = .openCurly) :
    Escapes (RulesSlip ctx input.advance) close after braces
      (blockClosing.read ((rulesOf (rule ctx)).read input.advance).rest).rest := by
  obtain ⟨hescapes, hstop⟩ := escapes_rulesOf hrule hs (h.advance_open hclose ho)
  exact escapes_blockClosing hescapes hstop

/-- Where a block of rules is looked for. -/
theorem escapes_ruleBlock (hs : input.size ≤ bound + 1)
    (h : Inside (close :: after) braces input) :
    Escapes (Unended input.ahead ∨
        input.view.kind = .openCurly ∧ RulesSlip ctx input.advance) close after braces
      ((ruleBlock (rule ctx)).read input).rest := by
  rw [ruleBlock, rest_read_bind]
  by_cases ho : input.view.kind = .openCurly
  · rw [read_blockOpening_of_open ho]
    simp only [if_true, rest_read_bind, read_pure]
    refine (escapes_rules_block hclose hrule (size_advance_le hs) h ho).congr ?_
    simp [ho, not_unended_of_open h ho]
  · obtain ⟨hresult, hrest⟩ := read_blockOpening_of_ne ho
    rw [hresult, hrest]
    simp only [Bool.false_eq_true, if_false, read_pure]
    refine (escapes_passRule hclose h).congr ?_
    simp [ho]

/-- Behind its condition, a rule looks for its block of rules. -/
theorem escapes_supportsRule (hs : input.size ≤ bound)
    (h : Inside (close :: after) braces input) :
    Escapes (Unended ((supportsCondition ctx).read input).rest.ahead ∨
        ((supportsCondition ctx).read input).result.isSome = true ∧
          ((supportsCondition ctx).read input).rest.view.kind = .openCurly ∧
            RulesSlip ctx ((supportsCondition ctx).read input).rest.advance) close after braces
      ((supportsRule ctx (rule ctx)).read input).rest := by
  have hin := (stays_supportsCondition ctx).inside hclose h
  have hsize := Nat.le_trans (size_read_le (supportsCondition ctx) input) hs
  rw [supportsRule, rest_read_bind]
  rcases hcondition : ((supportsCondition ctx).read input).result with _ | condition
  · simp only [rest_read_bind, read_complainOf, read_pure]
    refine (escapes_passRule hclose hin).congr ?_
    simp
  · simp only [rest_read_bind, read_pure]
    refine (escapes_ruleBlock hclose hrule (Nat.le_succ_of_le hsize) hin).congr ?_
    simp

/-- Behind its functions, a rule looks for its block of rules. -/
theorem escapes_documentRule (hs : input.size ≤ bound)
    (h : Inside (close :: after) braces input) :
    Escapes (Unended ((documentFunctionsFrom (input.size + 1) []).read input).rest.ahead ∨
        ((documentFunctionsFrom (input.size + 1) []).read input).result.isSome = true ∧
          ((documentFunctionsFrom (input.size + 1) []).read input).rest.view.kind = .openCurly ∧
            RulesSlip ctx ((documentFunctionsFrom (input.size + 1) []).read input).rest.advance)
      close after braces ((documentRule (rule ctx)).read input).rest := by
  have hin := (stays_documentFunctionsFrom (input.size + 1) []).inside hclose h
  have hsize := Nat.le_trans (size_read_le (documentFunctionsFrom (input.size + 1) []) input) hs
  have hview : input.view.size = input.size := rfl
  rw [documentRule, rest_read_bind, read_view, rest_read_bind, hview]
  rcases hfunctions : ((documentFunctionsFrom (input.size + 1) []).read input).result with
    _ | functions
  · simp only [rest_read_bind, read_complainOf, read_pure]
    refine (escapes_passRule hclose hin).congr ?_
    simp
  · simp only [rest_read_bind, read_pure]
    refine (escapes_ruleBlock hclose hrule (Nat.le_succ_of_le hsize) hin).congr ?_
    simp

/-- Behind its media list, a rule for media reads its block, or ends where it stands. -/
theorem escapes_mediaRule (hs : input.size ≤ bound) (h : Inside (close :: after) braces input) :
    Escapes (((atPrelude ctx .media).read input).rest.view.kind = .openCurly ∧
        RulesSlip ctx ((atPrelude ctx .media).read input).rest.advance) close after braces
      ((mediaRule ctx (rule ctx)).read input).rest := by
  have htail : ∀ (media : MediaList) (j : Input), j.size ≤ bound →
      Inside (close :: after) braces j →
      Escapes (j.view.kind = .openCurly ∧ RulesSlip ctx j.advance) close after braces
        ((mediaBlock (rule ctx) media).read j).rest := by
    intro media j hj hin
    rw [mediaBlock, rest_read_bind, read_view]
    split
    · next hk =>
      simp only [rest_read_bind, read_skip, read_pure]
      have hadv : j.advance.size ≤ bound := size_advance_le (Nat.le_succ_of_le hj)
      refine (escapes_rules_block hclose hrule hadv hin hk).congr ?_
      exact ⟨fun hslip => ⟨hk, hslip⟩, And.right⟩
    · next hk =>
      simp only [rest_read_bind, read_complain, read_skip, read_pure]
      refine ⟨fun hslip => ?_, fun _ => ?_⟩
      · exact absurd (hslip.1.symm.trans hk) (by decide)
      · exact hin.advance hclose (by rw [hk]; decide) (by rw [hk]; decide)
    · next ho _ =>
      simp only [rest_read_bind, read_complainOf, read_pure]
      exact ⟨fun hslip => absurd hslip.1 ho, fun _ => hin⟩
  rw [mediaRule, mediaPrelude, atPrelude, rest_read_bind, rest_read_bind, rest_read_bind, read_kind]
  by_cases ho : input.view.kind = .openCurly
  · rw [if_pos ho, if_pos ho, rest_read_bind]
    exact htail _ _ hs h
  · rw [if_neg ho, if_neg ho, rest_read_bind]
    exact htail _ _ (Nat.le_trans (size_read_le (mediaList ctx .openCurly) input) hs)
      ((stays_mediaList _).inside hclose h)

/-- A rule stops in the braces it started in, unless it slips, whatever its at-keyword is. -/
theorem escapes_atRule (hs : input.size ≤ bound + 1) (h : Inside (close :: after) braces input)
    (hk : input.view.kind = .atKeyword) :
    Escapes (RuleSlips ctx input) close after braces ((atRule ctx (rule ctx)).read input).rest := by
  have hin := h.advance hclose (by rw [hk]; decide) (by rw [hk]; decide)
  have hsize := size_advance_le hs
  have hplain := h.plain hclose (by rw [hk]; decide)
  rw [atRule, rest_read_bind, read_take]
  cases hname : AtKeyword.ofName input.view.token.name with
  | importRule | charset | namespaceRule =>
    have hkind : input.view.token.kind = .atKeyword := hk
    simp [isPlain, hkind, hname] at hplain
  | fontFace | viewport =>
    exact (escapes_blockRule hclose hin).congr (ruleSlips_of_bare hk hname rfl).symm
  | page => exact (escapes_pageRule hclose hin).congr (ruleSlips_of_page hk hname).symm
  | unknown =>
    exact (escapes_unknownRule hclose hin).congr (ruleSlips_of_bare hk hname rfl).symm
  | keyframes =>
    exact (escapes_keyframesRule hclose hin).congr (ruleSlips_of_keyframes hk hname).symm
  | supports =>
    exact (escapes_supportsRule hclose hrule hsize hin).congr
      (ruleSlips_of_supports hk hname).symm
  | document =>
    exact (escapes_documentRule hclose hrule hsize hin).congr
      (ruleSlips_of_document hk hname).symm
  | media =>
    exact (escapes_mediaRule hclose hrule hsize hin).congr
      (ruleSlips_of_mediaKeyword hk hname).symm

end

/-- A rule that is passed over leaves its block if it finds no end of its own. -/
theorem escapes_abandonRule (cause : String → Cause) (hclose : close.token.kind = .closeCurly)
    (h : Inside (close :: after) braces input)
    (hprelude : (prelude ctx).read input = ⟨.other, input, []⟩) :
    Escapes (RuleSlips ctx input) close after braces ((abandonRule cause).read input).rest := by
  refine escapes_other (by rw [body, hprelude]) ?_
  rw [afterPrelude, hprelude, abandonRule]
  simp only [rest_read_bind, read_complainOf, read_pure]
  exact escapes_passRule hclose h

/-- Whether its selector list is valid or not, a style rule ends with its block. -/
theorem rest_styleRule : ((styleRule ctx).read input).rest =
    ((declarationBlock ctx .standard).read (selectorList.read input).rest).rest := by
  rw [styleRule]
  simp only [rest_read_bind, read_view]
  by_cases hv : (selectorList.read input).result.valid = true
  · simp only [hv, Bool.not_true, Bool.false_eq_true, if_false, rest_read_bind]
    cases ((declarationBlock ctx .standard).read (selectorList.read input).rest).result <;> rfl
  · simp only [hv, Bool.not_false, if_true, rest_read_bind, read_complainAt]
    cases ((declarationBlock ctx .standard).read (selectorList.read input).rest).result <;> rfl

/-- A style rule leaves its block if it finds neither a block of its own nor an end. -/
theorem escapes_styleRule (hclose : close.token.kind = .closeCurly)
    (h : Inside (close :: after) braces input)
    (hprelude : (prelude ctx).read input =
      (do let _ ← selectorList; pure .other : Production Body).read input) :
    Escapes (RuleSlips ctx input) close after braces ((styleRule ctx).read input).rest := by
  have hbody : body ctx input = .other := by rw [body, hprelude, result_read_bind, read_pure]
  have hafter : afterPrelude ctx input = (selectorList.read input).rest := by
    rw [afterPrelude, hprelude, rest_read_bind, read_pure]
  refine escapes_other hbody ?_
  rw [rest_styleRule, hafter]
  exact escapes_declarationBlock ctx _ hclose (stays_selectorList.inside hclose h)

/-- A rule in a block stops in the braces it started in, unless it slips. -/
theorem escapes_rule (ctx : Context) (hclose : close.token.kind = .closeCurly) (bound : Nat) :
    ∀ braces input, input.size ≤ bound → Inside (close :: after) braces input →
      input.view.kind ≠ .closeCurly →
      Escapes (RuleSlips ctx input) close after braces ((rule ctx).read input).rest := by
  induction bound with
  | zero =>
    intro braces input hs h
    have hpos := h.size_pos
    omega
  | succ bound ih =>
    intro braces input hs h hc
    rw [read_rule]
    cases hk : input.view.kind
    case eof => exact absurd hk h.kind_ne_eof
    case closeCurly => exact absurd hk hc
    case atKeyword => exact escapes_atRule hclose ih hs h hk
    case openCurly | string | badString | url | badUrl | closeParen | closeBracket =>
      exact escapes_abandonRule _ hclose h (by rw [prelude, read_bind, read_view, hk]; rfl)
    all_goals
      exact escapes_styleRule hclose h (by rw [prelude, read_bind, read_view, hk]; rfl)

end Cssom.Grammar
