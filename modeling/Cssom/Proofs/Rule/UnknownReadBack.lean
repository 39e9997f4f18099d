import Cssom.Proofs.Printing.Sources
import Cssom.Proofs.Printing.StandsFor
import Cssom.Proofs.Printing.Unknown
import Cssom.Proofs.Reading.Erasure
import Cssom.Proofs.Rule.ReadBack

/-!
# Rules of unknown names are read back

A rule of an unknown name that ends by itself is read back from its print, whatever escapes its
source holds, if no token of the source is unfinished (`Rule.ofText_render_unknown`). The print has
a blank behind the name and before the block, and none before the semicolon, whatever stands there
in the source; it is cut into the tokens of the rule all the same (`UnknownRule.KeptOf.lexes`), and
they would be kept again (`UnknownRule.KeptOf.again`). `unknown_rules_are_kept` adds what is kept of
a source.
-/

namespace Cssom

open Token Production Grammar

namespace Token

variable {lead src ps after : List Piece} {p : Piece} {w : List Char} {depth : Nat}

/-- A block that closes stands for itself, whatever follows it in the source. -/
theorem SingleSpaced.standsFor_of_closes (h : SingleSpaced false src ps)
    (hcloses : Closes depth (kinds src)) (hdepth : depth ≠ 0) (hw : Apart w)
    (hsound : Sound (src ++ after)) : StandsFor (src ++ after) ps w := by
  generalize hfresh : false = fresh at h
  induction h generalizing depth with
  | nil => exact absurd hcloses id
  | @token fresh lead src ps p hlead hp hne more ih =>
    subst hfresh
    rw [kinds_token hlead hp, Closes] at hcloses
    rw [List.append_assoc, List.cons_append] at hsound ⊢
    split at hcloses
    · next hzero =>
      cases more with
      | token hlead' hp' _ _ =>
        rw [kinds_token hlead' hp'] at hcloses
        exact absurd hcloses (List.cons_ne_nil _ _)
      | nil =>
        obtain rfl : p = (.closeCurly, "\x7d") := eq_of_spelling hsound.of_append.lexes
          (eq_closeCurly_of_bracesAfter hdepth hzero) rfl
        have hsettled := hsound.of_append.settled_head rfl
        exact standsFor_mark _ hlead (fun _ _ => rfl) hsound.lexes
          (lexes_gapOf false lead rfl (alone_closeCurly.lexes trivial))
          (agrees_gapOf lead hsettled (.of_apart hw))
    · next hpos => exact (ih hcloses hpos hsound.of_append.tail rfl).token hlead hp hsound

end Token

namespace UnknownRule

variable {rule : UnknownRule} {consumed : List Lexeme} {after : List Piece}

/-- An at-keyword is read back before what it is printed before. -/
theorem lexes_keyword {text : String} {src ps : List Piece} {block? : Option (List Token)}
    (h : Regular ((.atKeyword, text) :: src))
    (hps : Lexes (behindBlank ps ++ endPieces block?) []) :
    Lexes ((.atKeyword, text) :: (behindBlank ps ++ endPieces block?)) [] := by
  have hblank (qs : List Piece) : Apart (spell (blank :: qs) ++ []) :=
    Or.inr (Or.inl ⟨' ', _, rfl, by decide⟩)
  have hapart : Apart (spell (behindBlank ps ++ endPieces block?) ++ []) := by
    rcases ps with _ | ⟨p, ps⟩
    · rcases block? with _ | block
      · exact Or.inr (Or.inl ⟨';', _, rfl, by decide⟩)
      · exact hblank _
    · exact hblank _
  exact ⟨((legible_of_regular h rfl rfl (by simp)).lexes _ hapart).1, hps⟩

/-- The pieces of a rule that ends by itself are read back, if it was kept of a sound source. -/
theorem KeptOf.lexes (h : rule.KeptOf consumed true)
    (hsound : Sound ((.atKeyword, "@" ++ rule.name) :: (Lexeme.pieces consumed ++ after))) :
    Lexes rule.pieces [] := by
  cases h with
  | @statement name before mark _ hmark =>
    rw [Lexeme.pieces_around] at hsound
    have hbefore := Lexeme.singleSpaced_keptAll true hsound.tail.lexes
    have hrest := hsound.tail.of_append
    have hpiece := eq_of_spelling hrest.of_append.lexes hmark rfl
    rw [hpiece] at hsound hrest
    have hends : StandsFor _ [((Kind.semicolon, ";") : Piece)] [] :=
      standsFor_mark [] mark.areTrivia_lead (fun _ _ => rfl) hrest.lexes
        (alone_semicolon.lexes trivial) (.of_apart (Or.inr (Or.inl ⟨';', _, rfl, by decide⟩)))
    exact lexes_keyword hsound.toRegular (hbefore.lexes_behindBlank hends hsound.tail)
  | @block name before inside mark _ hmark hcloses =>
    rw [Lexeme.pieces_around] at hsound
    have hbefore := Lexeme.singleSpaced_keptAll true hsound.tail.lexes
    have hrest := hsound.tail.of_append
    have hpiece := eq_of_spelling hrest.of_append.lexes hmark rfl
    rw [hpiece] at hsound hrest
    have hinside := hrest.of_append.tail
    have hblock := Lexeme.singleSpaced_keptAll false hinside.lexes
    rw [← Lexeme.kinds_pieces] at hcloses
    have hstands := hblock.standsFor_of_closes hcloses Nat.one_ne_zero (Or.inl rfl) hinside
    have hends : StandsFor _ (blank :: (Kind.openCurly, "\x7b") ::
        (Lexeme.keptAll false inside).map Token.piece) [] :=
      standsFor_mark [blank] mark.areTrivia_lead (fun _ _ => rfl) hrest.lexes
        (lexes_blank rfl (alone_openCurly.lexes hstands.lexes))
        (.of_apart (Or.inr (Or.inl ⟨' ', _, rfl, by decide⟩)))
    exact lexes_keyword hsound.toRegular (hbefore.lexes_behindBlank hends hsound.tail)

/-- What was kept of a rule that ends by itself would be kept again. -/
theorem KeptOf.again (h : rule.KeptOf consumed true)
    (hlexes : Lexes (Lexeme.pieces consumed ++ after) []) : rule.IsKeptAgain := by
  cases h with
  | @statement name before mark hbefore _ =>
    rw [Lexeme.pieces_around] at hlexes
    have hpreamble := Lexeme.singleSpaced_keptAll true hlexes
    refine ⟨hpreamble.again, ?_, fun _ hnone => absurd hnone (by simp)⟩
    rw [hpreamble.kinds_eq]
    exact Lexeme.forall_kinds_pieces.2 hbefore
  | @block name before inside mark hbefore _ hcloses =>
    rw [Lexeme.pieces_around] at hlexes
    have hpreamble := Lexeme.singleSpaced_keptAll true hlexes
    have hblock := Lexeme.singleSpaced_keptAll false
      (lexes_append.1 (lexes_append.1 hlexes).2).2.2
    refine ⟨hpreamble.again, ?_, ?_⟩
    · rw [hpreamble.kinds_eq]
      exact Lexeme.forall_kinds_pieces.2 hbefore
    · rintro block hsome
      obtain rfl := Option.some.inj hsome
      refine ⟨hblock.again, ?_⟩
      rwa [hblock.kinds_eq, Lexeme.kinds_pieces]

/-- A token before the others does not end a rule, unless it is a semicolon. -/
theorem endsIn_cons (rule : UnknownRule) {lexeme : Lexeme} (hkind : lexeme.kind ≠ .semicolon)
    (lexemes : List Lexeme) : rule.endsIn (lexeme :: lexemes) = rule.endsIn lexemes := by
  unfold endsIn
  split
  · rfl
  · rw [List.getLast?_cons]
    rcases lexemes.getLast? with _ | last
    · simpa using hkind
    · rfl

end UnknownRule

/-- Pieces of a source without unfinished tokens and backslashes by themselves. -/
theorem sound_tokenize {source : String} {file : Option String}
    (h : ∀ t ∈ tokenize source file, t.kind ≠ .badString ∧ t.kind ≠ .badUrl ∧
      (t.kind = .delim → t.text ≠ "\\")) :
    Sound (Input.ofTokens (tokenize source file)).pieces where
  toRegular := regular_tokenize fun t ht => (h t ht).2.2
  finished p hp := by
    obtain ⟨ts, eof, htokens, _, hpieces, _⟩ := tokenize_eq source file
    rw [pieces_tokenize, ← hpieces] at hp
    obtain ⟨t, ht, rfl⟩ := List.mem_map.1 hp
    have hmem : t ∈ tokenize source file := htokens ▸ List.mem_append_left _ ht
    exact ⟨(h t hmem).1, (h t hmem).2.1⟩

namespace Grammar

open Input

variable {config : Config} {i : Input}

/-- What is kept of a rule of an unknown name that stands at the cursor. -/
theorem ruleWithin_kept (hkeep : config.keepUnknownRules = true) (depth : Nat)
    (hkind : i.view.kind = .atKeyword) (hname : AtKeyword.ofName i.view.token.name = .unknown) :
    (ruleWithin (.ofConfig config) (depth + 1)).Yields i fun result rest =>
      ∃ rule consumed ended, result = some (.unknown rule) ∧ rule.name = i.view.token.name ∧
        i.advance.ahead = consumed ++ rest.ahead ∧ rule.KeptOf consumed ended ∧
        (ended = false → rest.ahead = []) :=
  (unknownRule_kept hkeep _ _).congr (read_ruleWithin_unknown _ depth hkind hname)

/-- An at-keyword at the cursor comes first of what is left, behind some trivia. -/
theorem pieces_of_keyword (hlexes : Lexes i.pieces []) (hkind : i.view.kind = .atKeyword) :
    ∃ lead, i.pieces = lead ++ (.atKeyword, "@" ++ i.view.token.name) :: i.advance.pieces := by
  have hsignificant : i.view.kind.isSignificant = true := by
    rw [hkind]
    rfl
  obtain ⟨lead, hpieces⟩ := exists_lead hsignificant
  rw [hpieces] at hlexes
  have hfirst := (lexes_append.1 hlexes).2.1
  rw [show i.view.token.piece.1 = .atKeyword from hkind] at hfirst
  refine ⟨lead, ?_⟩
  rwa [show i.view.token.piece = (.atKeyword, "@" ++ i.view.token.name) from
    Prod.ext hkind (text_of_keyword hkind hfirst)] at hpieces

/-- A rule that ends by itself in what was ahead ended where it was kept: if it did not, it was kept
of all that was ahead behind its at-keyword. -/
theorem ended_of_endsIn {rule : UnknownRule} {consumed rest : List Lexeme} {ended : Bool}
    (hkind : i.view.kind = .atKeyword) (hahead : i.advance.ahead = consumed ++ rest)
    (hkept : rule.KeptOf consumed ended) (hleft : ended = false → rest = [])
    (hends : rule.endsIn i.ahead = true) : ended = true := by
  rw [← Bool.not_eq_false]
  intro hopen
  rcases hall : i.ahead with _ | ⟨keyword, behind⟩
  · rw [i.kind_view_eq_eof_iff.2 hall] at hkind
    cases hkind
  · have hfirst : keyword.kind ≠ .semicolon := by
      rw [← kind_view_of_ahead hall, hkind]
      decide
    rw [Input.ahead_advance, hall, List.tail_cons, hleft hopen, List.append_nil] at hahead
    rw [hall, rule.endsIn_cons hfirst, hahead, hkept.keeps.1, hopen] at hends
    cases hends

end Grammar

/-- The print of a rule of an unknown name that ends by itself is read back, if no token of its
source is unfinished. -/
theorem Rule.ofText_render_unknown {text : String} {config : Config} {rule : UnknownRule}
    (hkeep : config.keepUnknownRules = true)
    (hsound : Sound (Input.ofTokens (tokenize text none)).pieces)
    (h : Rule.ofText text config = .ok (.unknown rule))
    (hends : rule.endsIn (Input.ofTokens (tokenize text none)).ahead = true) :
    ∃ again, Rule.ofText (Rule.unknown rule).render config = .ok again ∧
      again.same (.unknown rule) = true := by
  generalize hinput : Input.ofTokens (tokenize text none) = i at hsound hends
  have hread := Rule.result_of_ofText h
  rw [hinput] at hread
  have hread : ((ruleWithin (.ofConfig config) (i.view.size + 1)).read i).result =
      some (.unknown rule) := hread
  obtain ⟨hkind, hname⟩ := (ruleWithin_starts _ hsound.lexes _ hread).2 rule rfl
  obtain ⟨rule', consumed, ended, hrule, hrulename, hahead, hkept, hleft⟩ :=
    ruleWithin_kept hkeep i.view.size hkind hname
  obtain rfl : rule = rule' := Rule.unknown.inj (Option.some.inj (hread.symm.trans hrule))
  rw [ended_of_endsIn hkind hahead hkept hleft hends] at hkept
  obtain ⟨lead, hpieces⟩ := pieces_of_keyword hsound.lexes hkind
  obtain ⟨after, hafter⟩ := Input.exists_pieces_of_ahead hahead
  rw [hpieces, hafter, ← hrulename] at hsound
  have hsource := hsound.of_append
  have hahead' : (Input.ofTokens (tokenize (Rule.unknown rule).render none)).Ahead
      (rule.pieces ++ []) False := by
    rw [List.append_nil]
    exact ahead_tokenize none rule.spell_pieces (hkept.lexes hsource) False.elim
  obtain ⟨again, hagain, hgives⟩ := gives_unknown (hkept.again hsource.tail.lexes)
    (by rw [hrulename, hname]) hkeep hahead' _
  refine ⟨.unknown again, Rule.ofText_of_gives (.view hgives), ?_⟩
  exact UnknownRule.same_of_mapTokens hagain

/-- Where rules of unknown names are kept, each keeps all of its tokens: those before its mark, and
those in its block, in order, with a single space before each that trivia stood before but for the
first; nothing is left unless the rule ends by itself. And one that does is read back from its
print, if its text holds no unfinished token and no backslash that is one by itself. -/
theorem unknown_rules_are_kept (config : Config) (hkeep : config.keepUnknownRules = true) :
    (∀ (depth : Nat) (s : Parser), s.view.kind = .atKeyword →
      AtKeyword.ofName s.view.token.name = .unknown →
      let run := (ruleWithin (.ofConfig config) (depth + 1)).run s
      ∃ (rule : UnknownRule) (before mark inside : List Lexeme),
        run.1 = some (.unknown rule) ∧ rule.name = s.view.token.name ∧
        s.input.advance.ahead = before ++ mark ++ inside ++ run.2.input.ahead ∧
        rule.Keeps before mark inside ∧
        (rule.endsIn (before ++ mark ++ inside) = false → run.2.input.ahead = [])) ∧
    ∀ (text : String) (tokens : List Token) (rule : UnknownRule),
      Token.scan text none = .ok tokens →
      (∀ t ∈ tokens, t.kind ≠ .badString ∧ t.kind ≠ .badUrl ∧
        (t.kind = .delim → t.text ≠ "\\")) →
      Rule.ofText text config = .ok (.unknown rule) →
      rule.endsIn (Input.ofTokens tokens).ahead = true →
      ∃ again, Rule.ofText (Rule.unknown rule).render config = .ok again ∧
        again.same (.unknown rule) = true := by
  constructor
  · intro depth s hkind hname run
    obtain ⟨rule, consumed, ended, hrule, hrulename, hahead, hkept, hleft⟩ :=
      (ruleWithin_kept hkeep depth hkind hname).run
    obtain ⟨hended, before, mark, inside, rfl, hkeeps⟩ := hkept.keeps
    exact ⟨rule, before, mark, inside, hrule, hrulename, hahead, hkeeps,
      fun hopen => hleft (hended.symm.trans hopen)⟩
  · intro text tokens rule hscan htokens h hends
    rw [scan_eq_tokenize] at hscan
    obtain rfl := Except.ok.inj hscan
    exact Rule.ofText_render_unknown hkeep (sound_tokenize htokens) h hends

/-- The rule, if it is one of an unknown name. -/
def Rule.unknown? : Rule → Option UnknownRule
  | unknown rule => some rule
  | _ => none

/-- A rule whose block is open where its source ends, and one that ends with its block, in which a
quoted address and a block stand, and comments that are printed as blanks. -/
theorem unknown_rules_are_kept_nested :
    (∃ (rule : UnknownRule) (before mark inside : List Lexeme),
      ((ruleWithin (.ofConfig .tolerant) 1).run
        (.ofTokens (tokenize "@x \x7b y" none) .tolerant)).1 = some (.unknown rule) ∧
      rule.Keeps before mark inside) ∧
    let text := "@x/**/url( \"a\"/**/)\x7b b\x7bc\x7d \x7d"
    ∃ rule again, Rule.ofText text .tolerant = .ok (.unknown rule) ∧
      (Rule.unknown rule).render = "@x url( \"a\" ) \x7b b\x7bc\x7d \x7d" ∧
      Rule.ofText (Rule.unknown rule).render .tolerant = .ok again ∧
      again.same (.unknown rule) = true := by
  constructor
  · obtain ⟨rule, before, mark, inside, hrule, -, -, hkeeps, -⟩ :=
      (unknown_rules_are_kept .tolerant rfl).1 0
        (.ofTokens (tokenize "@x \x7b y" none) .tolerant) (by decide +kernel) (by decide +kernel)
    exact ⟨rule, before, mark, inside, hrule, hkeeps⟩
  · intro text
    have hread : ((Rule.ofText text .tolerant).toOption.any fun r => r.unknown?.any fun rule =>
        rule.endsIn (Input.ofTokens (tokenize text none)).ahead &&
          decide ((Rule.unknown rule).render = "@x url( \"a\" ) \x7b b\x7bc\x7d \x7d")) = true := by
      decide +kernel
    obtain ⟨r, htext, hr⟩ := exists_ok_of_any hread
    cases r with
    | unknown rule =>
      obtain ⟨hends, hprint⟩ := (Bool.and_eq_true _ _).mp hr
      obtain ⟨again, hagain, hsame⟩ := (unknown_rules_are_kept .tolerant rfl).2 text _ rule
        (scan_eq_tokenize text none) (by decide +kernel) htext hends
      exact ⟨rule, again, htext, of_decide_eq_true hprint, hagain, hsame⟩
    | _ => exact absurd hr Bool.false_ne_true

end Cssom
