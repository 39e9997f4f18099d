import Cssom.Proofs.Printing.Rule
import Cssom.Proofs.Printing.Sources

/-!
# Style sheets are read back

A style sheet that was read from a plain source, however malformed that was, is printed so that
reading the print gives the same style sheet, and nothing but unknown names of declarations is
reported then (`print_reads_back`).
-/

namespace Cssom

namespace Grammar

open Production Token Input

variable {ctx : Context} {config : Config} {i j : Input}

/-! ### Lines of rules -/

/-- The line break between two rules of a style sheet. -/
def newline : Piece := (.whitespace, "\n")

/-- A line break separates legible pieces. -/
theorem separates_newline : Separates [newline] := by
  intro ps qs hps hqs
  have hgap : "\n".toList = ['\n'] := rfl
  exact hps.append_spaces hqs hgap (List.mem_cons_of_mem _ List.mem_cons_self)
    (List.forall_mem_nil _)

/-- Reads a rule with the bound of all tokens ahead. -/
def anyRule (p : Nat → Production (Option Rule)) : Production (Option Rule) := do
  p ((← view).size + 1)

/-- Reads all that is left as rules. -/
def allRules (p : Nat → Production (Option Rule)) : Production (List Rule) := do
  itemsFrom (· == .eof) (anyRule p) (← view).size []

/-- A style sheet is all rules that are left. -/
theorem stylesheet_eq (ctx : Context) :
    stylesheet ctx = Stylesheet.mk <$> allRules (ruleWithin ctx) := by
  unfold stylesheet allRules
  rw [map_bind]
  exact congrArg (view >>= ·) (funext fun view => stylesheetFrom_eq ctx view.size [])

section

variable {p : Nat → Production (Option Rule)}

/-- Given the bound of all tokens ahead, a rule takes one if one is left. -/
theorem Advancing.anyRule (hp : Advancing p) (s : Parser) (hs : s.hasTokens = true) :
    (anyRule p).Advances s :=
  hp s.view.size s hs

/-- A rule that is read back within some bound is read back within that of all tokens. -/
theorem readsAs_anyRule {r : Rule} {ps : List Piece}
    (h : ReadsAs p (endsItems · = false) (fun _ => True) (some r) r.render ps) :
    ReadsAs (fun _ => anyRule p) (endsItems · = false) (fun _ => True) (some r) r.render ps where
  spell := h.spell
  legible := h.legible
  starts := h.starts
  gives _ input tail hahead _ _ := by
    unfold anyRule
    apply Gives.view
    exact h.gives (input.size + 1) input tail hahead trivial (Nat.lt_succ_self _)

/-- The rules of a style sheet, each behind a line break but for the first. -/
theorem itemAhead_lines {rules : List Rule} {ps : List Piece} {pss : List (List Piece)} {r : Rule}
    (h : RulesPrint p (r :: rules) (ps :: pss)) :
    List.Forall₂ (ItemAhead (fun _ => anyRule p) (endsItems · = false) Rule.render True)
      (r :: rules) (ps :: pss.map ([newline] ++ ·)) := by
  rcases h with _ | ⟨hps, hpss⟩
  refine .cons ⟨[], ps, rfl, areTrivia_nil, readsAs_anyRule hps⟩ ?_
  rw [List.forall₂_map_right_iff]
  exact hpss.imp fun r qs hqs =>
    ⟨[newline], qs, rfl, areTrivia_singleton rfl, readsAs_anyRule hqs⟩

/-- Rules that are read back one by one are read back as the rules of a style sheet. -/
theorem gives_allRules (hp : Advancing p) {rules : List Rule} {pss : List (List Piece)}
    (h : RulesPrint p rules pss) (hahead : j.Ahead ([newline].intercalate pss)) :
    (allRules p).Gives j rules [] := by
  have hstarts : ∀ k : Kind, endsItems k = false → (k == .eof) = false ∧ k ≠ .eof := by
    intro k hk
    rw [endsItems, Bool.or_eq_false_iff] at hk
    exact ⟨hk.2, beq_eq_false_iff_ne.1 hk.2⟩
  have hitems : ∃ ls,
      List.Forall₂ (ItemAhead (fun _ => anyRule p) (endsItems · = false) Rule.render True)
        rules ls ∧ ls.flatten = [newline].intercalate pss := by
    rcases h with _ | ⟨hps, hpss⟩
    · exact ⟨[], .nil, rfl⟩
    · refine ⟨_, itemAhead_lines (.cons hps hpss), ?_⟩
      rw [join_cons, List.flatten_cons, List.flatMap_def]
  obtain ⟨ls, hls, hflatten⟩ := hitems
  rw [← hflatten, ← List.append_nil ls.flatten] at hahead
  have hloop := gives_itemsFrom hstarts hp.anyRule hls (fun _ => trivial) j.view.size [] hahead rfl
    (Nat.le_refl _) (Nat.lt_succ_self _)
  exact .view hloop

end

/-- Rules that are ahead, each on a line, are read as a style sheet of them. -/
theorem gives_stylesheet {rules : List Rule} {pss : List (List Piece)}
    (h : RulesPrint (ruleWithin ctx) rules pss) (hahead : j.Ahead ([newline].intercalate pss)) :
    (stylesheet ctx).Gives j ⟨rules⟩ [] := by
  rw [stylesheet_eq]
  exact (gives_allRules (advancing_ruleWithin ctx) h hahead).map

/-- What holds of every rule that is read holds of all rules of a style sheet. -/
theorem allRules_yields {P : Rule → Prop} {p : Nat → Production (Option Rule)}
    (hrule : ∀ depth, Offers P (p depth)) (hplain : Plain i.pieces) :
    (allRules p).Yields i fun rules _ => ∀ r ∈ rules, P r := by
  unfold allRules
  apply Yields.view
  refine itemsFrom_yields (fun i hplain => ?_) _ hplain (List.forall_mem_nil _)
  unfold anyRule
  apply Yields.view
  exact hrule _ i hplain

/-- Every rule of a style sheet that was read is read back. -/
theorem stylesheet_yields (hunknown : config.keepUnknownRules = false)
    (hinvalid : config.keepInvalidValues = false) (hplain : Plain i.pieces) :
    (stylesheet (.ofConfig config)).Yields i fun sheet _ => ∀ r ∈ sheet.rules,
      RuleReadsBack (ruleWithin (.ofConfig config)) r := by
  rw [stylesheet_eq]
  apply Yields.map
  exact allRules_yields (rule_reads_back hunknown hinvalid) hplain

end Grammar

/-! ### Sources -/

section

open Token

/-- The blanks that separate tokens. -/
def Token.separators : List Char :=
  [' ', '\t', '\r', '\n', '\x0c']

/-- A text without backslashes, other blanks and unfinished strings. -/
structure PlainText (text : String) : Prop where
  slash : '\\' ∉ text.toList
  blanks : ∀ c ∈ text.toList, Text.isBlank c = true → c ∈ Token.separators
  strings : ∀ p ∈ pieces text.toList, p.1 ≠ .badString

/-- A text is plain if it has no backslash, no blanks but those that separate tokens, and no
unfinished string. -/
theorem PlainText.of_tokens {source : String} {file : Option String} (hslash : '\\' ∉ source.toList)
    (hblanks : ∀ c ∈ source.toList, Text.isBlank c = true → c ∈ Token.separators)
    (hstrings : ∀ t ∈ tokenize source file, t.kind ≠ .badString) : PlainText source where
  slash := hslash
  blanks := hblanks
  strings p hp := by
    obtain ⟨ts, eof, htokens, _, hpieces, _⟩ := tokenize_eq source file
    rw [← hpieces] at hp
    obtain ⟨t, ht, rfl⟩ := List.mem_map.1 hp
    exact hstrings t (htokens ▸ List.mem_append_left _ ht)

/-- The pieces of a plain text are those of a plain source. -/
theorem PlainText.plain {text : String} (h : PlainText text) (file : Option String) :
    Plain (Input.ofTokens (tokenize text file)).pieces := by
  obtain ⟨hlexes, hspell⟩ := lexes_pieces text.toList
  rw [pieces_tokenize]
  refine ⟨hlexes, ?_, ?_, h.strings⟩
  · rw [hspell]
    exact h.slash
  · rw [hspell]
    intro c hc hblank
    have hall : ∀ c ∈ Token.separators, isSpace c = true := List.all_eq_true.1 (by decide)
    exact hall c (h.blanks c hc hblank)

end

/-! ### Printing and reading back -/

/-- Rules that are read back are printed as lines that are read back. -/
theorem exists_lines {p : Nat → Production (Option Rule)} {sheet : Stylesheet}
    (h : ∀ r ∈ sheet.rules, Grammar.RuleReadsBack p r) : ∃ pss,
      Grammar.RulesPrint p sheet.rules pss ∧
      Token.spell ([Grammar.newline].intercalate pss) = sheet.render.toList ∧
      Token.Lexes ([Grammar.newline].intercalate pss) [] := by
  obtain ⟨pss, hpss⟩ := Grammar.exists_rulesPrint h
  obtain ⟨hlegible, hspell⟩ := legible_of_forall₂ hpss
  refine ⟨pss, hpss, ?_, ?_⟩
  · rw [Token.spell_join, hspell, Stylesheet.render, String.toList_intercalate]
    rfl
  · by_cases hnil : pss = []
    · rw [hnil]
      trivial
    · exact (Token.legible_join Grammar.separates_newline hlegible hnil).lexes [] (Or.inl rfl)

/-- A style sheet that was read from a source, however malformed that was, is read back from its
print, and nothing but unknown names of declarations is reported then. The source has no backslash,
no blanks but those that separate tokens and no unfinished string; rules of unknown names and
invalid values are not kept; and the print is shorter than 4 GiB. -/
theorem print_reads_back (source : String) (file file' : Option String) (config : Config)
    (tokens : List Token) (hscan : Token.scan source file = .ok tokens)
    (hslash : '\\' ∉ source.toList)
    (hblanks : ∀ c ∈ source.toList, Text.isBlank c = true → c ∈ Token.separators)
    (hstrings : ∀ t ∈ tokens, t.kind ≠ .badString)
    (hunknown : config.keepUnknownRules = false) (hinvalid : config.keepInvalidValues = false)
    (hsmall : (Stylesheet.parse tokens config).1.render.utf8ByteSize < 2 ^ 32) :
    ∃ again, Token.scan (Stylesheet.parse tokens config).1.render file' = .ok again ∧
      (Stylesheet.parse again config).1 = (Stylesheet.parse tokens config).1 ∧
      ∀ d ∈ (Stylesheet.parse again config).2.diagnostics,
        ∃ name, d.cause = .unknownDeclarationName name := by
  rw [Token.scan_eq_tokenize, Except.ok.injEq] at hscan
  subst hscan
  have hplain := (PlainText.of_tokens hslash hblanks hstrings).plain file
  have hrules := Grammar.stylesheet_yields hunknown hinvalid hplain
  unfold Production.Yields at hrules
  rw [← Stylesheet.parse_result] at hrules
  obtain ⟨pss, hpss, hspell, hlexes⟩ := exists_lines hrules
  have hgives := Grammar.gives_stylesheet hpss (ahead_tokenize file' hspell hlexes fun _ => hsmall)
  refine ⟨_, Token.scan_eq_tokenize _ _, ?_, ?_⟩
  · rw [Stylesheet.parse_result, hgives.result]
  · intro d hd
    rw [← Array.mem_toList_iff, Stylesheet.parse_reports] at hd
    exact hgives.reports d hd

/-- A group with a rule that is not closed, and an animation whose moments have words for keys. -/
theorem print_reads_back_unclosed :
    let source :=
      "@keyframes x \x7b from \x7b a: b \x7d \x7d\n@media print \x7b c > d \x7b e : f(g) "
    let tokens := Token.tokenize source none
    let sheet := (Stylesheet.parse tokens .strict).1
    ∃ again, Token.scan sheet.render none = .ok again ∧
      (Stylesheet.parse again .strict).1 = sheet ∧
      ∀ d ∈ (Stylesheet.parse again .strict).2.diagnostics,
        ∃ name, d.cause = .unknownDeclarationName name := by
  refine print_reads_back _ none none .strict _ (Token.scan_eq_tokenize _ none) ?_ ?_ ?_ rfl rfl ?_
  · simp
  · simp [Text.isBlank, Token.separators]
  · decide +kernel
  · decide +kernel

end Cssom
