import Cssom.Proofs.Condition.NormalForm
import Cssom.Proofs.Printing.Sources

/-!
# Conditions are read back from their print

Whatever is read as a condition, from a source with escapes, with parentheses that are not closed,
and with more behind it, is read from its print again, and its print holds nothing else
(`conditions_read_back`). What makes up a condition is read back part by part; here its print is all
of a source.
-/

namespace Cssom

open Production Token

/-- Whatever is read as a condition, or as a part of one, from a source in which no backslash is a
token by itself, is read from its print again, and nothing is left then. Invalid values are not
kept. -/
theorem conditions_read_back (source : String) (file file' : Option String) (config : Config)
    (tokens : List Token) (hscan : Token.scan source file = .ok tokens)
    (hslash : ∀ t ∈ tokens, t.kind = .delim → t.text ≠ "\\")
    (hinvalid : config.keepInvalidValues = false) :
    (∀ c, (Condition.parse tokens config).1 = some c →
      ∃ again, Token.scan c.render file' = .ok again ∧
        (Condition.parse again config).1 = some c ∧
        (Condition.parse again config).2.rest = []) ∧
    ∀ c, ((Grammar.operand (.ofConfig config)).run (.ofTokens tokens config)).1 = some c →
      ∃ again, Token.scan c.render file' = .ok again ∧
        ((Grammar.operand (.ofConfig config)).run (.ofTokens again config)).1 = some c ∧
        ((Grammar.operand (.ofConfig config)).run (.ofTokens again config)).2.rest = [] := by
  rw [scan_eq_tokenize, Except.ok.injEq] at hscan
  subst hscan
  have hregular := regular_tokenize hslash
  have hoperands : ∀ depth, Grammar.OperandsReadBack (.ofConfig config) depth False :=
    Grammar.operand_reads_back hinvalid
  refine ⟨fun c hc => ?_, fun c hc => ?_⟩
  · have hread : (Grammar.condition (.ofConfig config)).Yields
        (Input.ofTokens (tokenize source file)) fun result _ =>
          ∀ c, result = some c → Grammar.ChainReadsBack (.ofConfig config) c False :=
      .view (Grammar.chainOf_reads_back (hoperands _) hregular)
    rw [Condition.parse, run_result] at hc
    exact exists_reading_of_readsBack (hread c hc) (Or.inl rfl) config file'
  · have hread : (Grammar.operand (.ofConfig config)).Yields
        (Input.ofTokens (tokenize source file)) fun result rest => ∀ c, result = some c →
          Grammar.OperandReadsBack (.ofConfig config) c False ∧
            Grammar.FollowsOperand c rest.view.kind :=
      .view (hoperands _ _ hregular)
    rw [run_result] at hc
    exact exists_reading_of_readsBack (hread c hc).1 (fun _ => Or.inl rfl) config file'

/-- A name and a string with escapes, a property of the name `not`, a parenthesis that is not
closed, and more behind it. -/
theorem conditions_read_back_unclosed :
    let source := "(a\\;b: \"\\\"\" , url( 'c' )) AND not (not: d/**/!important;e"
    let tokens := tokenize source none
    let part : Condition :=
      .group (.declaration ⟨"a\\;b", some ⟨"\"\\\"\" , url( 'c' )"⟩, false, false⟩)
    let whole : Condition :=
      .conjunction [part, .negation (.group (.declaration ⟨"not", some ⟨"d"⟩, true, false⟩))]
    let operand := Grammar.operand (.ofConfig .strict)
    ((Condition.parse tokens .strict).1 = some whole ∧
      (operand.run (.ofTokens tokens .strict)).1 = some part) ∧
    (∃ again, Token.scan whole.render none = .ok again ∧
      (Condition.parse again .strict).1 = some whole ∧
      (Condition.parse again .strict).2.rest = []) ∧
    ∃ again, Token.scan part.render none = .ok again ∧
      (operand.run (.ofTokens again .strict)).1 = some part ∧
      (operand.run (.ofTokens again .strict)).2.rest = [] := by
  intro source tokens part whole operand
  have hwhole : (Condition.parse tokens .strict).1 = some whole := by decide +kernel
  have hpart : (operand.run (.ofTokens tokens .strict)).1 = some part := by decide +kernel
  obtain ⟨hconditions, hparts⟩ := conditions_read_back source none none .strict tokens
    (scan_eq_tokenize _ none) (by decide +kernel) rfl
  exact ⟨⟨hwhole, hpart⟩, hconditions whole hwhole, hparts part hpart⟩

end Cssom
