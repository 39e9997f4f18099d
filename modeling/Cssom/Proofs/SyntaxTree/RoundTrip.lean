import Cssom.Proofs.Reading.Termination
import Cssom.Proofs.SyntaxTree.Lossless
import Cssom.Proofs.Token.Scan

/-!
# The syntax tree of a source is the source

A style sheet is read to its end, so its tree holds every token of the list, and the tokens of a
text, put together, are the text (`Token.spelling_tokenize`). With what holds at every moment of
every run this is `tree_is_what_was_read`.
-/

namespace Cssom

open SyntaxTree SyntaxTree.Builder

namespace Parser

variable {tokens : List Token} {parser : Parser}

/-- At the end of the input the tree holds all the tokens. -/
theorem tokens_syntaxTree (h : parser.Keeps tokens) (hend : parser.hasTokens = false) :
    ∃ tree, parser.syntaxTree = some tree ∧ tree.tokens = tokens := by
  obtain ⟨builder, read, htree, hread, hall⟩ := keeps_iff_read h
  refine ⟨builder.finish parser.root, by rw [syntaxTree, htree]; rfl, ?_⟩
  rw [hasTokens_eq] at hend
  rw [tokens_finish, hread, hall, Input.fromCursor_of_not_hasTokens hend, Input.current?, hend]
  rfl

/-- Reading a style sheet does to the tree what the production does. -/
theorem keeps_readStylesheet (ctx : Context) (h : parser.Keeps tokens) :
    (parser.readStylesheet ctx).2.Keeps tokens := by
  obtain ⟨builder, hb, htokens⟩ := (Grammar.stylesheet ctx).keeps_run h
  exact ⟨builder, ⟨hb.tree_eq, hb.abreast⟩, htokens⟩

/-- At the start the tree keeps the tokens of the list up to the end marker. -/
theorem keeps_ofTokens (tokens : List Token) {config : Config} (h : config.keepTree = true) :
    (ofTokens tokens config).Keeps (tokens.takeWhile (·.kind != .eof)) := by
  rw [ofTokens, h, ← Input.tokens_ofTokens]
  exact keeps_ofInput _

end Parser

/-- With a tree kept, on whatever tokens and productions: at every moment the tree holds the tokens
up to the one under the cursor, each once and in order. A frame that was closed holds those from
the one under the cursor when it was opened to the one before the cursor when it was closed, and
leaves as many frames open as there were. The tree of a style sheet is its text. -/
theorem tree_is_what_was_read (config : Config) (h : config.keepTree = true) :
    (∀ (tokens : List Token) (α : Type) (p : Production α),
      (∀ moment ∈ p.moments (.ofTokens tokens config), ∃ builder read,
        moment.tree = some builder ∧ builder.tokens = read ++ moment.input.current? ∧
        tokens.takeWhile (·.kind != .eof) = read ++ moment.input.fromCursor) ∧
      (∀ run ∈ p.frameRuns (.ofTokens tokens config), ∃ builder node read,
        run.closed.tree = some builder ∧ builder.newestFrame? = some node ∧
        run.opened.input.fromCursor = node.tokens ++ run.closed.input.fromCursor ∧
        tokens.takeWhile (·.kind != .eof) =
          read ++ node.tokens ++ run.closed.input.fromCursor ∧
        run.closed.depth = run.opened.depth)) ∧
    (∀ (text : String) (file : Option String),
      (Stylesheet.parse (Token.tokenize text file) config).2.syntaxTree.map source =
        some text) := by
  refine ⟨fun tokens α p => ⟨?_, ?_⟩, fun text file => ?_⟩
  · intro moment hm
    exact Parser.keeps_iff_read (p.keeps_moments (Parser.keeps_ofTokens tokens h) moment hm)
  · intro run hr
    obtain ⟨builder, hb, _⟩ := Parser.keeps_ofTokens tokens h
    obtain ⟨before, after, node, hbefore, hafter, hdepth, hnode, hread⟩ :=
      p.frameRun_spec hb run hr
    have hopened := (p.frameRuns_subset_moments _ run hr).1
    obtain ⟨_, read, _, _, hall⟩ := Parser.keeps_iff_read
      (p.keeps_moments (Parser.keeps_ofTokens tokens h) run.opened hopened)
    refine ⟨after, node, read, hafter, hnode, hread.symm, ?_, ?_⟩
    · rw [hall, ← hread, List.append_assoc]
    · rw [Parser.depth, Parser.depth, hbefore, hafter]
      exact hdepth
  · have hkeeps := Parser.keeps_readStylesheet (.ofConfig config)
      (Parser.keeps_ofTokens (Token.tokenize text file) h)
    obtain ⟨tree, htree, htokens⟩ := Parser.tokens_syntaxTree hkeeps
      (Grammar.hasTokens_readStylesheet _ _)
    rw [Stylesheet.parse, htree, Option.map_some, SyntaxTree.source, htokens,
      Token.spelling_tokenize]

/-- The tree of two rules, the second unfinished, is their text. -/
theorem tree_is_what_was_read_unfinished :
    (Stylesheet.parse (Token.tokenize "a \x7b b: c \x7d @media /* d */ (e" none)
      { Config.strict with keepTree := true }).2.syntaxTree.map source =
        some "a \x7b b: c \x7d @media /* d */ (e" :=
  (tree_is_what_was_read { Config.strict with keepTree := true } rfl).2 _ _

end Cssom
