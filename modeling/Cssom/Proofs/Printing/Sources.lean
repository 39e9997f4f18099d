import Cssom.Parser.Entry
import Cssom.Proofs.Printing.Steps
import Cssom.Proofs.Recovery.Kept
import Cssom.Proofs.SyntaxTree.Lossless
import Cssom.Proofs.Token.Scan

/-!
# Whole sources

The pieces of a source are those that its text is cut into (`pieces_tokenize`), and of pieces that
are legible a text is made which is cut into them again (`ahead_tokenize`). So what is printed so
that it is read back is read from its print where the print is all of a source
(`exists_reading_of_readsBack`).
-/

namespace Cssom

open Production Token

/-- The pieces of a source are those that its text is cut into. -/
theorem pieces_tokenize (source : String) (file : Option String) :
    (Input.ofTokens (tokenize source file)).pieces = pieces source.toList := by
  obtain ⟨ts, eof, _, _, hpieces, htake⟩ := tokenize_eq source file
  rw [Input.pieces, Input.tokens_ofTokens, htake, ← hpieces]
  rfl

/-- The tokens of a source are cut as they are. -/
theorem lexes_tokenize (source : String) (file : Option String) :
    Lexes (Input.ofTokens (tokenize source file)).pieces [] := by
  rw [pieces_tokenize]
  exact (lexes_pieces source.toList).1

/-- The tokens of a source have texts. -/
theorem worded_tokenize (source : String) (file : Option String) :
    (Input.ofTokens (tokenize source file)).Worded := by
  apply Input.worded_ofTokens
  intro t ht hkind
  obtain ⟨ts, eof, htokens, heof, hpieces, _⟩ := tokenize_eq source file
  rw [htokens, List.mem_append, List.mem_singleton] at ht
  rcases ht with ht | rfl
  · have hpiece : (t.kind, t.text) ∈ pieces source.toList :=
      hpieces ▸ List.mem_map_of_mem ht
    exact pieces_text_ne_empty _ _ hpiece
  · exact absurd heof hkind

/-- The pieces of a source without backslashes that are tokens by themselves. -/
theorem regular_tokenize {source : String} {file : Option String}
    (h : ∀ t ∈ tokenize source file, t.kind = .delim → t.text ≠ "\\") :
    Regular (Input.ofTokens (tokenize source file)).pieces := by
  obtain ⟨ts, eof, htokens, _, hpieces, _⟩ := tokenize_eq source file
  rw [pieces_tokenize]
  refine ⟨(lexes_pieces source.toList).1, fun hmem => ?_⟩
  rw [← hpieces] at hmem
  obtain ⟨t, ht, hpiece⟩ := List.mem_map.1 hmem
  rw [Prod.mk.injEq] at hpiece
  exact h t (htokens ▸ List.mem_append_left _ ht) hpiece.1 hpiece.2

/-- What is ahead of the tokens of a text that is spelled by pieces. Those of a short one start at
different bytes. -/
theorem ahead_tokenize {source : String} (file : Option String) {ps : List Piece} {placed : Prop}
    (hspell : spell ps = source.toList) (hlexes : Lexes ps [])
    (hsmall : placed → source.utf8ByteSize < 2 ^ 32) :
    (Input.ofTokens (tokenize source file)).Ahead ps placed := by
  have hpieces := pieces_of_lexes hlexes
  rw [List.append_nil, pieces_nil, List.append_nil, hspell] at hpieces
  refine .of_pieces ?_ fun hplaced =>
    Input.nodup_offsets_ofTokens (nodup_offsets_tokenize source file (hsmall hplaced))
  rw [pieces_tokenize, hpieces]

/-- What reading all of a source gives, with nothing left. -/
theorem run_of_gives {α : Type} {p : Production α} {a : α} {tokens : List Token} {placed : Prop}
    (h : p.Gives (.ofTokens tokens) a [] placed) (config : Config) :
    (p.run (.ofTokens tokens config)).1 = a ∧ (p.run (.ofTokens tokens config)).2.rest = [] := by
  refine ⟨?_, ?_⟩
  · rw [run_result]
    exact h.result
  · have hnone := (Input.kind_view_eq_eof_iff _).1 h.rest.kind
    rw [Parser.rest, run_rest]
    exact congrArg (List.map _) hnone

/-- What is printed so that it is read back is read from its print, and nothing is left then. -/
theorem exists_reading_of_readsBack {α : Type} {p : Nat → Production α}
    {starts follows : Kind → Prop} {a : α} {text : String}
    (h : ReadsBack p starts follows a text False) (hend : follows .eof) (config : Config)
    (file : Option String) : ∃ tokens, Token.scan text file = .ok tokens ∧
      ((view >>= fun view => p (view.size + 1)).run (.ofTokens tokens config)).1 = a ∧
      ((view >>= fun view => p (view.size + 1)).run (.ofTokens tokens config)).2.rest = [] := by
  obtain ⟨ps, hps⟩ := h
  have hahead : (Input.ofTokens (tokenize text file)).Ahead (ps ++ []) False := by
    rw [List.append_nil]
    exact ahead_tokenize file hps.spell (hps.legible.lexes [] (Or.inl rfl)) False.elim
  have hgives : (view >>= fun view => p (view.size + 1)).Gives
      (Input.ofTokens (tokenize text file)) a [] False :=
    .view (hps.gives _ _ _ hahead hend (Nat.lt_succ_self _))
  exact ⟨_, scan_eq_tokenize _ _, run_of_gives hgives config⟩

/-! ### Texts that hold one thing -/

variable {text : String} {config : Config} {r : Rule}

/-- The one thing that a text holds is what is read, if nothing is left then. -/
theorem soleResult_run {α : Type} (p : Production (Option α)) (parser : Parser) :
    soleResult text (p.run parser) =
      match (p.read parser.input).result with
      | some a =>
        if (p.read parser.input).rest.hasTokens then .error (.placeless (.syntaxError text))
        else .ok a
      | none => .error (.placeless (.syntaxError text)) := by
  rw [← run_result, ← run_rest]
  rcases p.run parser with ⟨_ | a, after⟩ <;> rfl

/-- A text holds a rule if that is all there is to read in it. -/
theorem Rule.ofText_eq (text : String) (config : Config) : Rule.ofText text config =
    soleResult text ((Grammar.rule (.ofConfig config)).run
      (.ofTokens (tokenize text none) config)) := by
  rw [Rule.ofText, Token.scan_eq_tokenize]
  rfl

/-- The rule that a text holds was read from its tokens. -/
theorem Rule.result_of_ofText (h : Rule.ofText text config = .ok r) :
    ((Grammar.rule (.ofConfig config)).read (.ofTokens (tokenize text none))).result = some r := by
  rw [Rule.ofText_eq, soleResult_run] at h
  split at h
  · next a hresult =>
    split at h
    · cases h
    · exact hresult.trans (congrArg some (Except.ok.inj h))
  · cases h

/-- A text whose tokens all are read as a rule holds that rule. -/
theorem Rule.ofText_of_gives
    (h : (Grammar.rule (.ofConfig config)).Gives (.ofTokens (tokenize text none)) (some r) []
      False) :
    Rule.ofText text config = .ok r := by
  have hnone : (((Grammar.rule (.ofConfig config)).read
      (.ofTokens (tokenize text none))).rest).hasTokens = false := by
    rw [Input.hasTokens, (Input.kind_view_eq_eof_iff _).1 h.rest.kind]
    rfl
  rw [Rule.ofText_eq, soleResult_run]
  rw [show (Parser.ofTokens (tokenize text none) config).input = .ofTokens (tokenize text none)
    from rfl, h.result, hnone]
  rfl

/-- A text of whose tokens no rule is read is a syntax error. -/
theorem Rule.ofText_of_none
    (h : ((Grammar.rule (.ofConfig config)).read (.ofTokens (tokenize text none))).result = none) :
    Rule.ofText text config = .error (.placeless (.syntaxError text)) := by
  rw [Rule.ofText_eq, soleResult_run]
  rw [show (Parser.ofTokens (tokenize text none) config).input = .ofTokens (tokenize text none)
    from rfl, h]

end Cssom
