import Cssom.Proofs.Reading.LikeRules

/-!
# Placeholders in place of names

A parser that takes every declaration as a placeholder reads the same as one that looks names up: a
name is spelled alike either way (`Vocabulary.spelling_standard`), so that declarations replace each
other in the same cases. The two differ in the marks of the properties that are known, and in that
only the second reports the names that are not (`placeholders_stand_for_names`).
-/

namespace Cssom

open Production

/-- The property without the mark of one that is known. -/
def Property.unmarked (property : Property) : Property :=
  { property with known := false }

/-- A property that is known is, but for its mark, the placeholder of its name. -/
theorem Property.unmarked_ofName {spelled name : String}
    (h : spelled = (Property.placeholder name).name) :
    (ofName spelled).unmarked = (placeholder name).unmarked := by
  rw [h]
  rfl

/-- Readings of the same tokens, of which the second reports no unknown names, and marks no property
as known. -/
def Likeness.unmarked : Likeness where
  span := Eq
  position := Eq
  offset := Eq
  property := Property.unmarked
  token := id
  quiet := true
  position_start h := congrArg Span.start h
  meets h h' := by rw [h, h']
  token_eq kind text _ _ h := congrArg (Token.mk kind text) h
  name_property _ := rfl
  assign_property _ _ _ := rfl

namespace Likeness

/-- An input is alike to itself, whatever is said of properties. -/
theorem unmarked_inputs (input : Input) : unmarked.Inputs input input where
  ahead := List.forall₂_same.2 fun _ _ => ⟨rfl, rfl, rfl, rfl, rfl⟩
  trailing := rfl
  text := rfl
  span := rfl

/-- What the second reading reports is what the first one does, apart from unknown names. -/
theorem Reports.eq_filter {ds es : List Diagnostic} (h : unmarked.Reports ds es) :
    es = ds.filter fun d => !d.cause.isUnknownName := by
  have hkept : (fun d : Diagnostic => !unmarked.leavesOut d.cause) =
      fun d => !d.cause.isUnknownName :=
    funext fun d => congrArg not (Bool.and_true _)
  have hsame : List.Forall₂ Eq (ds.filter fun d => !unmarked.leavesOut d.cause) es :=
    h.imp fun d e ⟨hcause, hposition⟩ => by
      cases d
      cases e
      exact congrArg₂ Diagnostic.mk hcause hposition
  rw [List.forall₂_eq_eq_eq, hkept] at hsame
  exact hsame.symm

/-- What a name stands for in the standard vocabulary is a placeholder of that name, but for the
mark. -/
theorem unmarked_of_known {set : BlockKind} {name : String} {property : Property}
    (h : Vocabulary.standard.property? set name = some property) :
    unmarked.Properties property (.placeholder name) := by
  obtain ⟨spelled, hspelled, rfl⟩ := Option.map_eq_some_iff.1 h
  exact Property.unmarked_ofName (Vocabulary.spelling_standard set hspelled)

/-- A configuration that looks names up goes with the one that does not, unless values that the
grammar refuses are kept. -/
theorem unmarked_contexts {config : Config} (hvalues : config.keepInvalidValues = false) :
    unmarked.Contexts (.ofConfig { config with placeholders := false })
      (.ofConfig { config with placeholders := true }) := by
  let ctx : Context := .ofConfig { config with placeholders := false }
  let ctx' : Context := .ofConfig { config with placeholders := true }
  have hnames : ¬ctx.config.takesPlaceholders = true := Bool.eq_false_iff.1 hvalues
  have hheld : ctx'.config.takesPlaceholders = true := rfl
  refine ⟨rfl, rfl, fun _ => rfl, fun set name a b hposition => ?_, fun name => ?_⟩
  · change Alike unmarked _ (Grammar.property ctx set name a) (Grammar.property ctx' set name b)
    unfold Grammar.property
    rw [if_neg hnames, if_pos hheld]
    split
    · next property hknown => exact .pure (unmarked_of_known hknown)
    · exact fun i j hij => ⟨rfl, hij, .nil⟩
  · change unmarked.Properties (Grammar.propertyOf ctx .standard name)
      (Grammar.propertyOf ctx' .standard name)
    unfold Grammar.propertyOf
    rw [if_neg hnames, if_pos hheld]
    cases hknown : ctx.vocabulary.property? .standard name with
    | none => rfl
    | some property => exact unmarked_of_known hknown

end Likeness

/-- Whatever the tokens are, and however forgiving a parser is apart from keeping values that the
grammar refuses: one that takes all declarations as placeholders reads the same style sheet as one
that looks their names up, once no property is marked as known, and reports the same at the same
places in the same order, apart from unknown names. -/
theorem placeholders_stand_for_names (tokens : List Token) (config : Config)
    (hvalues : config.keepInvalidValues = false) :
    let named := Stylesheet.parse tokens { config with placeholders := false }
    let held := Stylesheet.parse tokens { config with placeholders := true }
    held.1.mapParts Property.unmarked id = named.1.mapParts Property.unmarked id ∧
    held.2.diagnostics.toList =
      named.2.diagnostics.toList.filter fun d => !d.cause.isUnknownName := by
  have halike := Grammar.alike_stylesheet (Likeness.unmarked_contexts hvalues) _ _
    (Likeness.unmarked_inputs (.ofTokens tokens))
  dsimp only
  rw [Stylesheet.parse_result, Stylesheet.parse_result, Stylesheet.parse_reports,
    Stylesheet.parse_reports]
  exact ⟨halike.result.symm, halike.reports.eq_filter⟩

/-- A known name and one that is not, in an unclosed block. -/
theorem placeholders_stand_for_names_once :
    let token (kind : Token.Kind) (text : String) (start : UInt32) : Token :=
      ⟨kind, text, ⟨⟨start, ""⟩, ⟨start + 1, ""⟩⟩⟩
    let tokens : List Token :=
      [token .ident "a" 0, token .openCurly "\x7b" 1, token .ident "Width" 2, token .colon ":" 3,
        token .number "1" 4, token .semicolon ";" 5, token .ident "wide" 6, token .colon ":" 7,
        token .number "2" 8]
    let named := Stylesheet.parse tokens { Config.strict with placeholders := false }
    let held := Stylesheet.parse tokens { Config.strict with placeholders := true }
    (held.1.mapParts Property.unmarked id = named.1.mapParts Property.unmarked id ∧
      held.2.diagnostics.toList =
        named.2.diagnostics.toList.filter fun d => !d.cause.isUnknownName) ∧
    named.2.diagnostics.toList = [⟨.unknownDeclarationName "wide", ⟨6, ""⟩⟩] :=
  ⟨placeholders_stand_for_names _ .strict rfl, by decide⟩

end Cssom
