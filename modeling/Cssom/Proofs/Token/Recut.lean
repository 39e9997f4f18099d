import Cssom.Proofs.SyntaxTree.RoundTrip
import Cssom.Proofs.SyntaxTree.Frames
import Cssom.Proofs.Token.Spelling

/-!
# Tokens are cut alike wherever they stand

A form that matches within a prefix of a text matches the prefix alone in the same way, and one that
does not match the text does not match the prefix (`Pattern.Stable`). Of forms that look at nothing
but what they take this is known; a comment also looks for the end of the input, but only where it
has reached it. So the first token of a text is that of every prefix that holds it
(`first_of_append`), and any run of tokens of a source, put together, is cut into these tokens again
(`tokens_cut_alone`).
-/

namespace Cssom.Pattern

/-- What the pattern finds in a text it finds in every prefix that holds it. -/
structure Stable (p : Pattern) : Prop where
  some_of_append : ∀ (x r : List Char) (n : Nat),
    p.length? (x ++ r) = some n → n ≤ x.length → p.length? x = some n
  none_of_append : ∀ x r : List Char, p.length? (x ++ r) = none → p.length? x = none

/-- A pattern that looks at nothing but what it takes is stable. -/
theorem Stable.of_isLocal {p : Pattern} (h : p.isLocal = true) : p.Stable where
  some_of_append _ _ _ hmatch hn := length?_of_append h hmatch hn
  none_of_append _ _ hmatch := length?_of_append_none h hmatch

end Cssom.Pattern

namespace Cssom.Token

open Pattern

/-! ### Comments -/

/-- A comment after its opening: up to the first closing, or to the end of the input. -/
def commentRest : Pattern :=
  seq (few (one fun _ => true)) (alt (literal "*/") atEnd)

/-- At the end of the input a comment is complete. -/
theorem ends_commentRest_nil (n : Nat) : commentRest.ends (n, []) = [(n, [])] := rfl

/-- At each character the comment is closed there, or goes on behind it. -/
theorem ends_commentRest_cons (n : Nat) (c : Char) (s : List Char) :
    commentRest.ends (n, c :: s) =
      (literal "*/").ends (n, c :: s) ++ commentRest.ends (n + 1, s) := by
  simp [commentRest, ends, endsFew]

/-- Where a comment ends within a prefix of a text it ends in the prefix alone. -/
theorem head?_commentRest_of_append {n m : Nat} {x r t : List Char}
    (h : (commentRest.ends (n, x ++ r)).head? = some (m, t)) (hm : m ≤ n + x.length) :
    ∃ t', (commentRest.ends (n, x)).head? = some (m, t') := by
  induction x generalizing n with
  | nil =>
    have hsplits := commentRest.splits_of_mem_ends _ _ (List.mem_of_head? h)
    have hle : n ≤ m := hsplits.le
    have hn : n = m := Nat.le_antisymm hle hm
    exact ⟨[], by rw [ends_commentRest_nil, hn]; rfl⟩
  | cons c x ih =>
    have hfilter := (literal "*/").filter_ends_append rfl n (c :: x) r
    rw [List.cons_append] at h hfilter
    rw [ends_commentRest_cons] at h ⊢
    rcases hclosing : (literal "*/").ends (n, c :: (x ++ r)) with _ | ⟨b, more⟩
    · rw [hclosing, List.filter_nil] at hfilter
      rw [hclosing, List.nil_append] at h
      rw [List.map_eq_nil_iff.1 hfilter.symm, List.nil_append]
      exact ih h (by rw [List.length_cons] at hm; omega)
    · rw [hclosing, List.cons_append, List.head?_cons, Option.some.injEq] at h
      rw [hclosing, h, List.filter_cons_of_pos (by simpa using hm)] at hfilter
      obtain ⟨b', more', hends, hb', _⟩ := List.map_eq_cons_iff.1 hfilter.symm
      refine ⟨b'.2, ?_⟩
      rw [hends, List.cons_append, List.head?_cons]
      rw [extend, Prod.mk.injEq] at hb'
      rw [← hb'.1]

/-- A comment is what stands behind its opening. -/
theorem ends_commentForm (s : List Char) :
    commentForm.ends (0, '/' :: '*' :: s) = commentRest.ends (2, s) := by
  simp [commentForm, commentRest, literal, chars, char, ends]

/-- A comment is stable: where a prefix holds it all, the end of the input was not asked for, or the
prefix is all of the input. -/
theorem stable_commentForm : commentForm.Stable where
  some_of_append := by
    intro x r n hmatch hn
    have hopens : ['/', '*'] <+: x ++ r := by
      by_contra hno
      rw [commentForm_eq_none hno] at hmatch
      cases hmatch
    have hlong : 2 ≤ x.length := by
      obtain ⟨s, hs⟩ := hopens
      obtain ⟨b, hb, rfl⟩ := length?_eq_some.1 hmatch
      rw [← hs] at hb
      have hsplits := commentRest.splits_of_mem_ends _ _
        (List.mem_of_head? ((congrArg List.head? (ends_commentForm s)).symm.trans hb))
      exact Nat.le_trans hsplits.le hn
    obtain ⟨s, rfl⟩ := List.prefix_of_prefix_length_le hopens (List.prefix_append x r) hlong
    obtain ⟨⟨m, t⟩, hb, rfl⟩ := length?_eq_some.1 hmatch
    have hends : commentForm.ends (0, ['/', '*'] ++ s ++ r) = commentRest.ends (2, s ++ r) :=
      ends_commentForm (s ++ r)
    rw [hends] at hb
    have hm : m ≤ 2 + s.length := by
      rw [List.length_append] at hn
      exact hn
    obtain ⟨t', ht'⟩ := head?_commentRest_of_append hb hm
    exact length?_eq_some.2 ⟨(m, t'), (congrArg List.head? (ends_commentForm s)).trans ht', rfl⟩
  none_of_append := by
    intro x r hmatch
    refine commentForm_eq_none fun hopens => ?_
    -- a text that starts like a comment is one, since a comment may go on to the end
    obtain ⟨s, hs⟩ := hopens.trans (List.prefix_append x r)
    rw [length?_eq_none, ← hs] at hmatch
    have hend : commentRest.ends (2, s) = [] := (ends_commentForm s).symm.trans hmatch
    rw [commentRest, ends, List.flatMap_eq_nil_iff] at hend
    exact absurd (hend _ (mem_ends_few 2 s)) (by simp [ends])

/-! ### The first token -/

/-- Every form is stable. -/
theorem stable_forms : ∀ form ∈ forms, form.2.Stable := by
  have hlocal : ∀ form ∈ forms.tail, form.2.isLocal = true := List.all_eq_true.1 (by rfl)
  intro form hform
  rcases List.mem_cons.1 hform with rfl | hform
  · exact stable_commentForm
  · exact .of_isLocal (hlocal form hform)

/-- The first form of stable ones that matches a text, within a prefix, is the first that matches
the prefix. -/
theorem firstFrom_of_append {table : List (Kind × Pattern)}
    (hstable : ∀ form ∈ table, form.2.Stable) {x r : List Char}
    (h : (firstFrom table (x ++ r)).2 ≤ x.length) :
    firstFrom table x = firstFrom table (x ++ r) := by
  induction table with
  | nil => rfl
  | cons form table ih =>
    rw [List.forall_mem_cons] at hstable
    rw [firstFrom_cons] at h ⊢
    rw [firstFrom_cons form table (x ++ r)]
    cases hmatch : form.2.length? (x ++ r) with
    | none =>
      rw [hmatch] at h
      rw [hstable.1.none_of_append x r hmatch]
      exact ih hstable.2 h
    | some n =>
      rw [hmatch] at h
      rw [hstable.1.some_of_append x r n hmatch h]

/-- The first token of a text is the first one of every prefix that holds it. -/
theorem first_of_append {x r : List Char} (h : (first (x ++ r)).2 ≤ x.length) :
    first x = first (x ++ r) :=
  firstFrom_of_append stable_forms h

/-! ### Runs of tokens -/

/-- Pieces that are read back before some text are read back before none. -/
theorem Lexes.alone {ps : List Piece} {w : List Char} (h : Lexes ps w) : Lexes ps [] := by
  induction ps with
  | nil => trivial
  | cons p ps ih =>
    refine ⟨?_, ih h.2⟩
    have hfirst : first (p.2.toList ++ spell ps ++ w) = (p.1, p.2.toList.length) := by
      rw [List.append_assoc]
      exact h.1
    have hwithin : (first (p.2.toList ++ spell ps ++ w)).2 ≤ (p.2.toList ++ spell ps).length := by
      rw [hfirst, List.length_append]
      exact Nat.le_add_right _ _
    rw [List.append_nil, first_of_append hwithin, hfirst]

/-- A run of pieces of a text, put together, is cut into these pieces again. -/
theorem pieces_of_infix {s : List Char} {ps : List Piece} (h : ps <:+: pieces s) :
    pieces (spell ps) = ps := by
  obtain ⟨before, after, hall⟩ := h
  have hlexes := (lexes_pieces s).1
  rw [← hall, lexes_append, lexes_append] at hlexes
  have halone := pieces_of_lexes hlexes.1.2.alone
  rwa [List.append_nil, pieces_nil, List.append_nil] at halone

/-- The texts of the tokens, put together, are cut into the same tokens, up to their places, and the
end after them. -/
def CutAlone (tokens : List Token) : Prop :=
  ∀ file, ∃ again eof, scan (spelling tokens) file = .ok (again ++ [eof]) ∧ eof.kind = .eof ∧
    again.map (fun t => (t.kind, t.text)) = tokens.map fun t => (t.kind, t.text)

/-- Any tokens that follow each other in a source are cut alone. -/
theorem cutAlone_of_infix {source : String} {file : Option String} {tokens cut : List Token}
    (h : scan source file = .ok tokens) (hcut : cut <:+: tokens.takeWhile (·.kind != .eof)) :
    CutAlone cut := by
  rw [scan_eq_tokenize] at h
  obtain rfl : tokenize source file = tokens := Except.ok.inj h
  obtain ⟨ts, _, _, _, hpieces, htake⟩ := tokenize_eq source file
  have hinfix : cut.map (fun t => (t.kind, t.text)) <:+: pieces source.toList := by
    rw [← hpieces, ← htake]
    exact hcut.map _
  intro file'
  obtain ⟨again, eof, htokens, heof, hagain, _⟩ := tokenize_eq (spelling cut) file'
  refine ⟨again, eof, ?_, heof, ?_⟩
  · rw [scan_eq_tokenize, htokens]
  · have hspell : (spelling cut).toList = spell (cut.map fun t => (t.kind, t.text)) :=
      toList_spelling cut
    rw [hagain, hspell, pieces_of_infix hinfix]

end Cssom.Token

namespace Cssom

open SyntaxTree Token

/-! ### Frames -/

mutual

/-- The tokens of a frame stand side by side in the tree. -/
theorem SyntaxTree.infix_of_mem_frames : (tree : SyntaxTree) →
    ∀ f ∈ tree.frames, f.tokens <:+: tree.tokens
  | leaf _ => fun _ hf => absurd hf List.not_mem_nil
  | frame entity nodes => by
    intro f hf
    rw [frames, List.mem_cons] at hf
    rcases hf with rfl | hf
    · exact List.infix_rfl
    · exact SyntaxTree.infix_of_mem_allFrames nodes f hf

/-- The tokens of a frame follow each other in the whole tree. -/
theorem SyntaxTree.infix_of_mem_allFrames : (nodes : List SyntaxTree) →
    ∀ f ∈ allFrames nodes, f.tokens <:+: allTokens nodes
  | [] => fun _ hf => absurd hf List.not_mem_nil
  | node :: rest => by
    intro f hf
    rw [allFrames, List.mem_append] at hf
    rw [allTokens]
    rcases hf with hf | hf
    · exact (SyntaxTree.infix_of_mem_frames node f hf).trans (List.infix_append' [] _ _)
    · exact (SyntaxTree.infix_of_mem_allFrames rest f hf).trans (List.suffix_append _ _).isInfix

end

/-- Tokens are cut alike wherever they stand. Of the tokens of a source without its end, those from
any one to any other, put together, are cut into themselves again, with the same kinds and texts;
so is each of them by itself, and so are those that any frame of the tree covers. -/
theorem tokens_cut_alone (source : String) (file : Option String) (tokens : List Token)
    (hscan : Token.scan source file = .ok tokens) :
    (∀ before cut after, tokens = before ++ cut ++ after → after ≠ [] → CutAlone cut) ∧
    (∀ t ∈ tokens, t.kind ≠ .eof → CutAlone [t]) ∧
    (∀ config : Config, config.keepTree = true →
      ∃ tree, (Stylesheet.parse tokens config).2.syntaxTree = some tree ∧
        ∀ f ∈ tree.frames, CutAlone f.tokens) := by
  have hends := scan_covers_source source file
  obtain ⟨ts, eof, hscan', heof, hts, _⟩ := hends
  obtain rfl : tokens = ts ++ [eof] := Except.ok.inj (hscan.symm.trans hscan')
  have htake : (ts ++ [eof]).takeWhile (·.kind != .eof) = ts := by
    rw [List.takeWhile_append_of_pos fun t ht => bne_iff_ne.2 (hts t ht).1]
    simp [heof]
  have halone {cut : List Token} (h : cut <:+: ts) : CutAlone cut :=
    cutAlone_of_infix hscan (htake.symm ▸ h)
  refine ⟨?_, ?_, ?_⟩
  · intro before cut after hall hafter
    obtain ⟨after, last, rfl⟩ := List.eq_nil_or_concat after |>.resolve_left hafter
    rw [List.concat_eq_append, ← List.append_assoc] at hall
    have hfront := (List.append_inj' hall rfl).1
    exact halone ⟨before, after, hfront.symm⟩
  · intro t ht hkind
    rcases List.mem_append.1 ht with ht | ht
    · obtain ⟨before, after, rfl⟩ := List.append_of_mem ht
      exact halone ⟨before, after, by simp⟩
    · rw [List.mem_singleton.1 ht] at hkind
      exact absurd heof hkind
  · intro config hkeep
    have hkeeps := Parser.keeps_readStylesheet (.ofConfig config)
      (Parser.keeps_ofTokens (ts ++ [eof]) hkeep)
    obtain ⟨tree, htree, htokens⟩ := Parser.tokens_syntaxTree hkeeps
      (Grammar.hasTokens_readStylesheet _ _)
    refine ⟨tree, htree, fun f hf => halone ?_⟩
    rw [← htake, ← htokens]
    exact SyntaxTree.infix_of_mem_frames tree f hf

/-- A comment that goes on to the end of its source. -/
theorem tokens_cut_alone_unclosed :
    CutAlone [⟨.comment, "/*", .ofBytes 1 Position.inlineFile, .ofBytes 3 Position.inlineFile⟩] :=
  (tokens_cut_alone "a/*" none _ (Token.scan_eq_tokenize _ none)).2.1 _ (by decide) (by decide)

end Cssom
