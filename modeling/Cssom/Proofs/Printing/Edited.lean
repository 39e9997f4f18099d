import Cssom.Proofs.Printing.Unknown
import Cssom.Proofs.SyntaxTree.Shows
import Cssom.Stylesheet.Edit

/-!
# Edited style sheets are read back

Rules that were read apart may be put into a style sheet, at any depth, and others may be taken out.
Each of them was read from a plain text, and is read back wherever it stands if it is closed; so an
edited style sheet all of whose rules are closed prints a text that means the same style sheet
(`edited_print_reads_back`).
-/

namespace Cssom

open Token Production

variable {config : Config} {ctx : Context} {r : Rule} {rules : List Rule}

/-! ### Rules that are read back if they are closed -/

namespace Grammar

/-- A rule that keeps no places is read back also where places are not kept. -/
theorem RuleReadsBack.unplaced (h : RuleReadsBack (ruleWithin ctx) r) (hr : r.unplaced = r) :
    RuleReadsBack (unplacedWithin ctx) r.unplaced := by
  obtain ⟨ps, hps⟩ := h
  rw [hr]
  refine ⟨ps, hps.spell, hps.legible, hps.starts, fun bound input tail hahead hend hsize => ?_⟩
  have hmapped := (hps.gives bound input tail hahead hend hsize).map (g := Option.map Rule.unplaced)
  rwa [Option.map_some, hr] at hmapped

/-- Whatever rule was read is put together from rules that are read back if they are closed. -/
theorem rule_offers (hinvalid : config.keepInvalidValues = false) (depth : Nat) :
    Offers (Grown config (ReadsIfClosed config)) (ruleWithin (.ofConfig config) depth) :=
  rule_grown hinvalid (P := ReadsIfClosed config) (fun _ h _ => h.reads.unplaced h.unplaced)
    (fun _ hplain hkind hname => unknownRule_reads_back hplain hkind hname) depth

namespace Grown

variable {P : Rule → Prop}

/-- The rules inside of a rule that was grown were grown too. -/
theorem nested (h : Grown config P r) (hnested : r.nested? = some rules) :
    ∀ s ∈ rules, Grown config P s := by
  cases h with
  | single hnone => rw [hnone] at hnested; exact absurd hnested (by simp)
  | media _ hrules | supports _ hrules | document _ hrules =>
    rw [← Option.some.inj hnested]
    exact hrules

/-- A rule that was grown may hold other rules that were. -/
theorem withNested (h : Grown config P r) (hrules : ∀ s ∈ rules, Grown config P s) :
    Grown config P (r.withNested rules) := by
  cases h with
  | single hnone h =>
    have hsame : r.withNested rules = r := by
      cases r <;> first | rfl | exact absurd hnone (by simp [Rule.nested?])
    rw [hsame]
    exact .single hnone h
  | media hlist => exact .media hlist hrules
  | supports hcondition => exact .supports hcondition hrules
  | document hfunctions => exact .document hfunctions hrules

end Grown

end Grammar

/-- A rule inside of one of some rules is among all of them. -/
theorem Rule.mem_everyRule {s : Rule} (hr : r ∈ rules) (hs : s ∈ r.withInner) :
    s ∈ everyRule rules := by
  induction rules with
  | nil => exact absurd hr List.not_mem_nil
  | cons first rest ih =>
    rw [everyRule, List.mem_append]
    rcases List.mem_cons.1 hr with rfl | hr
    · exact Or.inl hs
    · exact Or.inr (ih hr)

/-- Where all rules are closed, down to the innermost, a rule is read back. -/
theorem Grammar.Grown.unplaced (h : Grown config (ReadsIfClosed config) r)
    (hclosed : config.keepUnknownRules = true → ∀ s ∈ r.withInner, s.isClosed = true) :
    Grown config (RuleReadsBack (unplacedWithin (.ofConfig config))) r.unplaced := by
  have hinner : ∀ {r : Rule} {rules : List Rule}, r.withInner = r :: Rule.everyRule rules →
      (config.keepUnknownRules = true → ∀ s ∈ r.withInner, s.isClosed = true) →
      (∀ s ∈ rules, (config.keepUnknownRules = true → ∀ t ∈ s.withInner, t.isClosed = true) →
        Grown config (RuleReadsBack (unplacedWithin (.ofConfig config))) s.unplaced) →
      ∀ s ∈ rules.map Rule.unplaced,
        Grown config (RuleReadsBack (unplacedWithin (.ofConfig config))) s := by
    intro r rules hwithin hclosed hrules s hs
    obtain ⟨inner, hmem, rfl⟩ := List.mem_map.1 hs
    refine hrules inner hmem fun hkeep t ht => hclosed hkeep t ?_
    rw [hwithin]
    exact List.mem_cons_of_mem _ (Rule.mem_everyRule hmem ht)
  induction h with
  | @single r hnested h =>
    refine .single (Rule.nested?_unplaced hnested) (h fun hkeep => hclosed hkeep r ?_)
    rw [Rule.withInner_eq]
    exact List.mem_cons_self
  | media hlist _ ih =>
    rw [Rule.unplaced_media]
    exact .media hlist (hinner rfl hclosed ih)
  | supports hcondition _ ih =>
    rw [Rule.unplaced_supports]
    exact .supports hcondition (hinner rfl hclosed ih)
  | document hfunctions _ ih =>
    rw [Rule.unplaced_document]
    exact .document hfunctions (hinner rfl hclosed ih)

/-! ### Edits -/

/-- What a style sheet may become when rules are deleted, and rules that plain texts hold are put in
place of others, in the style sheet or in any group inside of it. -/
inductive Edited (config : Config) (sheet : Stylesheet) : Stylesheet → Prop where
  | unedited : Edited config sheet sheet
  | delete {before after : Stylesheet} {path : List Nat} {index : Nat} {rule : Rule}
      (h : Edited config sheet before)
      (hdelete : before.deleteRule path index = .ok (rule, after)) : Edited config sheet after
  | replace {before after : Stylesheet} {path : List Nat} {index : Nat} {text : String}
      {rule : Rule} (h : Edited config sheet before) (hplain : PlainText text)
      (hreplace : before.replaceRule path index text config = .ok (rule, after)) :
      Edited config sheet after

namespace RuleList

/-- Deleting a rule leaves only rules that were there. -/
theorem mem_of_delete {index : Nat} {old : Rule} {changed : List Rule}
    (h : (delete index rules).mapError EditFailure.refused = .ok (old, changed)) :
    ∀ r ∈ changed, r ∈ rules := by
  unfold delete at h
  rcases hindex : rules[index]? with _ | rule
  · rw [hindex] at h
    cases h
  · rw [hindex] at h
    obtain ⟨-, rfl⟩ := Prod.mk.inj (Except.ok.inj h)
    exact fun r hr => List.mem_of_mem_eraseIdx hr

/-- Replacing a rule leaves only rules that were there, and the new one. -/
theorem mem_of_replace {index : Nat} {rule old : Rule} {changed : List Rule}
    (h : (replace index rule rules).mapError EditFailure.refused = .ok (old, changed)) :
    ∀ r ∈ changed, r ∈ rules ∨ r = rule := by
  unfold replace at h
  rcases hindex : rules[index]? with _ | old
  · rw [hindex] at h
    cases h
  · rw [hindex] at h
    obtain ⟨-, rfl⟩ := Prod.mk.inj (Except.ok.inj h)
    exact fun r hr => List.mem_or_eq_of_mem_set hr

end RuleList

/-- What is known of the rules of a list that is edited is known of all rules that hold it. -/
theorem RuleList.editRules_grown {P : Rule → Prop} {α : Type}
    {edit : List Rule → Edit (α × List Rule)}
    (hedit : ∀ rules result changed, (∀ r ∈ rules, Grammar.Grown config P r) →
      edit rules = .ok (result, changed) → ∀ r ∈ changed, Grammar.Grown config P r)
    (path : List Nat) {result : α} {changed : List Rule}
    (hrules : ∀ r ∈ rules, Grammar.Grown config P r)
    (h : editRules edit path rules = .ok (result, changed)) :
    ∀ r ∈ changed, Grammar.Grown config P r := by
  induction path generalizing rules result changed with
  | nil => exact hedit rules result changed hrules h
  | cons index path ih =>
    rw [editRules] at h
    rcases hindex : rules[index]? with _ | old
    · rw [hindex] at h
      cases h
    rw [hindex] at h
    have hold := hrules old (List.mem_of_getElem? hindex)
    rcases hnested : old.nested? with _ | nested
    · simp [hnested] at h
    simp only [hnested] at h
    rcases hinner : editRules edit path nested with _ | ⟨value, inner⟩
    · rw [hinner] at h
      cases h
    rw [hinner] at h
    obtain ⟨-, rfl⟩ := Prod.mk.inj (Except.ok.inj h)
    intro r hr
    rcases List.mem_or_eq_of_mem_set hr with hr | rfl
    · exact hrules r hr
    · exact hold.withNested (ih (hold.nested hnested) hinner)

/-- A rule that a plain text holds is put together from rules that are read back if they are
closed. -/
theorem ofText_grown (hinvalid : config.keepInvalidValues = false) {text : String}
    (hplain : PlainText text) (h : Rule.ofText text config = .ok r) :
    Grammar.Grown config (Grammar.ReadsIfClosed config) r := by
  have hread : (Grammar.rule (.ofConfig config)).Yields (.ofTokens (tokenize text none))
      fun result _ => ∀ r, result = some r →
        Grammar.Grown config (Grammar.ReadsIfClosed config) r := by
    unfold Grammar.rule
    apply Yields.view
    exact Grammar.rule_offers hinvalid _ _ (hplain.plain none)
  exact hread r (Rule.result_of_ofText h)

/-- However a style sheet was edited, its rules are put together from rules that are read back if
they are closed. -/
theorem Edited.grown (hinvalid : config.keepInvalidValues = false) {sheet edited : Stylesheet}
    (h : Edited config sheet edited)
    (hrules : ∀ r ∈ sheet.rules, Grammar.Grown config (Grammar.ReadsIfClosed config) r) :
    ∀ r ∈ edited.rules, Grammar.Grown config (Grammar.ReadsIfClosed config) r := by
  have hsheet : ∀ {before after : Stylesheet} {path : List Nat} {rule : Rule}
      {edit : List Rule → Edit (Rule × List Rule)},
      before.editRules path edit = .ok (rule, after) →
        RuleList.editRules edit path before.rules = .ok (rule, after.rules) := by
    intro before after path rule edit h
    rw [Stylesheet.editRules] at h
    rcases hinner : RuleList.editRules edit path before.rules with _ | ⟨result, changed⟩
    · rw [hinner] at h
      cases h
    · rw [hinner] at h
      obtain ⟨rfl, rfl⟩ := Prod.mk.inj (Except.ok.inj h)
      rfl
  induction h with
  | unedited => exact hrules
  | @delete before after path index rule _ hdelete ih =>
    refine RuleList.editRules_grown ?_ path ih (hsheet hdelete)
    exact fun rules old changed hall hedit r hr => hall r (RuleList.mem_of_delete hedit r hr)
  | @replace before after path index text rule _ hplain hreplace ih =>
    refine RuleList.editRules_grown ?_ path ih (hsheet hreplace)
    intro rules old changed hall hedit r hr
    rcases htext : Rule.ofText text config with _ | new
    · rw [htext] at hedit
      cases hedit
    · rw [htext] at hedit
      rcases RuleList.mem_of_replace hedit r hr with hr | rfl
      · exact hall r hr
      · exact ofText_grown hinvalid hplain htext

/-! ### Printing and reading back -/

/-- A style sheet all of whose rules are read back up to the places of their tokens prints a text
that means the same style sheet. -/
theorem same_of_reads_back {sheet : Stylesheet} (file : Option String)
    (h : ∀ r ∈ sheet.rules,
      Grammar.RuleReadsBack (Grammar.unplacedWithin (.ofConfig config)) r.unplaced)
    (hsmall : sheet.render.utf8ByteSize < 2 ^ 32) :
    ∃ again, Token.scan sheet.render file = .ok again ∧
      (Stylesheet.parse again config).1.same sheet = true ∧
      ∀ d ∈ (Stylesheet.parse again config).2.diagnostics,
        ∃ name, d.cause = .unknownDeclarationName name := by
  have hrender : (Stylesheet.mk (sheet.rules.map Rule.unplaced)).render = sheet.render := by
    rw [Stylesheet.render, Stylesheet.render, List.map_map]
    exact congrArg _ (List.map_congr_left fun r _ => Rule.render_unplaced r)
  have hback : ∀ r ∈ (Stylesheet.mk (sheet.rules.map Rule.unplaced)).rules,
      Grammar.RuleReadsBack (Grammar.unplacedWithin (.ofConfig config)) r := by
    intro s hs
    obtain ⟨r, hr, rfl⟩ := List.mem_map.1 hs
    exact h r hr
  obtain ⟨pss, hpss, hspell, hlexes⟩ := exists_lines hback
  rw [hrender] at hspell
  have hgives := Grammar.gives_allRules (Grammar.advancing_unplacedWithin _) hpss
    (ahead_tokenize file hspell hlexes fun _ => hsmall)
  rw [Grammar.allRules_map] at hgives
  have hresult := hgives.result
  have hreports := hgives.reports
  rw [read_map] at hresult hreports
  refine ⟨_, Token.scan_eq_tokenize _ _, ?_, ?_⟩
  · rw [Stylesheet.parse_result, Grammar.stylesheet_eq, read_map]
    apply Stylesheet.same_of_mapParts
    rw [Stylesheet.mapParts, Stylesheet.mapParts, Rule.mapAll_eq_map, Rule.mapAll_eq_map]
    exact congrArg Stylesheet.mk hresult
  · intro d hd
    rw [← Array.mem_toList_iff, Stylesheet.parse_reports, Grammar.stylesheet_eq, read_map] at hd
    exact hreports d hd

/-- However a style sheet was edited, its print is read as the same style sheet, and nothing but
unknown names of declarations is reported then, if all of its rules are closed where unknown rules
are kept. The source and the texts of rules are plain, invalid values are not kept, and the print is
shorter than 4 GiB. -/
theorem edited_print_reads_back (source : String) (file file' : Option String) (config : Config)
    (sheet : Stylesheet) (hsource : PlainText source)
    (hinvalid : config.keepInvalidValues = false)
    (hedited : Edited config (Stylesheet.parse (Token.tokenize source file) config).1 sheet)
    (hclosed : config.keepUnknownRules = true →
      ∀ r ∈ Rule.everyRule sheet.rules, r.isClosed = true)
    (hsmall : sheet.render.utf8ByteSize < 2 ^ 32) :
    ∃ again, Token.scan sheet.render file' = .ok again ∧
      (Stylesheet.parse again config).1.same sheet = true ∧
      ∀ d ∈ (Stylesheet.parse again config).2.diagnostics,
        ∃ name, d.cause = .unknownDeclarationName name := by
  have hread : (Grammar.allRules (Grammar.ruleWithin (.ofConfig config))).Yields
      (.ofTokens (tokenize source file)) fun rules _ =>
        ∀ r ∈ rules, Grammar.Grown config (Grammar.ReadsIfClosed config) r :=
    Grammar.allRules_yields (Grammar.rule_offers hinvalid) (hsource.plain file)
  have hrules := hedited.grown hinvalid (by
    rw [Stylesheet.parse_result, Grammar.stylesheet_eq, read_map]
    exact hread)
  refine same_of_reads_back file' (fun r hr => ?_) hsmall
  have hgrown := (hrules r hr).unplaced fun hkeep t ht =>
    hclosed hkeep t (Rule.mem_everyRule hr ht)
  exact hgrown.reads_back (Grammar.advancing_unplacedWithin _)
    fun keyword => Grammar.readsKeyword_unplacedWithin

/-- An unknown rule in a group that the source leaves open, and in its place another whose text ends
early. -/
theorem edited_print_reads_back_replaced :
    let config : Config := { Config.strict with keepUnknownRules := true }
    let source := "@media print \x7b @foo \x7b a \x7d b \x7b c: d"
    let sheet := (Stylesheet.parse (Token.tokenize source none) config).1
    ∃ rule edited, sheet.replaceRule [0] 0 "@bar ( x" config = .ok (rule, edited) ∧
      ∃ again, Token.scan edited.render none = .ok again ∧
        (Stylesheet.parse again config).1.same edited = true ∧
        ∀ d ∈ (Stylesheet.parse again config).2.diagnostics,
          ∃ name, d.cause = .unknownDeclarationName name := by
  intro config source sheet
  have hsource : PlainText source :=
    ⟨by simp [source], by simp [source, Text.isBlank, Token.separators], by decide +kernel⟩
  have htext : PlainText "@bar ( x" :=
    ⟨by simp, by simp [Text.isBlank, Token.separators], by decide +kernel⟩
  have hresult : ((sheet.replaceRule [0] 0 "@bar ( x" config).toOption.any fun edit =>
      (Rule.everyRule edit.2.rules).all Rule.isClosed &&
        decide (edit.2.render.utf8ByteSize < 2 ^ 32)) = true := by
    decide +kernel
  rcases hreplace : sheet.replaceRule [0] 0 "@bar ( x" config with _ | ⟨rule, edited⟩
  · rw [hreplace] at hresult
    exact absurd hresult Bool.false_ne_true
  · rw [hreplace] at hresult
    have hparts : (Rule.everyRule edited.rules).all Rule.isClosed = true ∧
        edited.render.utf8ByteSize < 2 ^ 32 := by simpa [Except.toOption] using hresult
    refine ⟨rule, edited, rfl, ?_⟩
    exact edited_print_reads_back source none none config edited hsource rfl
      (.replace .unedited htext hreplace) (fun _ => List.all_eq_true.1 hparts.1) hparts.2

/-- A block that the source leaves open takes the brace of the group it stands in. -/
example :
    let config : Config := { Config.strict with keepUnknownRules := true }
    let source := "@media print \x7b @foo \x7b a"
    let sheet := (Stylesheet.parse (Token.tokenize source none) config).1
    (Stylesheet.parse (Token.tokenize sheet.render none) config).1.same sheet = false := by
  decide +kernel

end Cssom
