import Cssom.Proofs.Printing.Unplaced
import Cssom.Proofs.Rule.Captured
import Cssom.Proofs.Token.Recut

/-!
# Rules of unknown names are read back

A rule of an unknown name is printed in the tokens it was kept in. Where the source ended before the
rule did, so does the print, and what is printed after it is taken for more of the rule. Any other
unknown rule *is closed*, which shows in its tokens (`UnknownRule.isClosed`), and is read back up to
the places of its tokens (`unknownRule_reads_back`).
-/

namespace Cssom

open Token

/-- Whether the print of an unknown rule ends where the rule does: its block has the brace that
closes it, or what stands before its semicolon leaves no address open. -/
def UnknownRule.isClosed (rule : UnknownRule) : Bool :=
  match rule.block with
  | some block => (block.map Token.kind).foldl Grammar.bracesAfter 1 == 0
  | none => (rule.preamble.map Token.piece).getLast?.all (!leavesOpen ·)

/-- Whether the print of a rule ends where the rule does, whatever stands inside of it. -/
def Rule.isClosed : Rule → Bool
  | unknown rule => rule.isClosed
  | _ => true

/-! ### Pieces -/

namespace Token

variable {ps src tail : List Piece}

/-- An at-keyword is its name behind an at-sign. -/
theorem text_of_keyword {token : Token} {s : List Char} (hkind : token.kind = .atKeyword)
    (h : first (token.text.toList ++ s) = (.atKeyword, token.text.toList.length)) :
    token.text = "@" ++ token.name := by
  obtain ⟨name, htext, _⟩ := name_of_atKeyword h
  rw [Token.name, hkind, ← String.toList_inj]
  simp [htext]

/-- Trivia open and close no braces. -/
theorem foldl_bracesAfter_kinds (ps : List Piece) (depth : Nat) :
    (kinds ps).foldl Grammar.bracesAfter depth =
      (ps.map (·.1)).foldl Grammar.bracesAfter depth := by
  rw [kinds, List.foldl_filter]
  congr 1
  funext depth k
  cases k <;> rfl

/-- The front of a plain source is one. -/
theorem Plain.front {qs : List Piece} (h : Plain (ps ++ qs)) : Plain ps where
  lexes := (lexes_append.1 h.lexes).1.alone
  slash hmem := h.slash (by rw [spell_append]; exact List.mem_append_left _ hmem)
  blanks c hc := h.blanks c (by rw [spell_append]; exact List.mem_append_left _ hc)
  strings p hp := h.strings p (List.mem_append_left _ hp)

/-- What is printed behind an at-keyword is legible with it. -/
theorem legible_behindKeyword {keyword : String} (hplain : Plain ((.atKeyword, keyword) :: src))
    (hprints : Prints false src ps) : Legible ((.atKeyword, keyword) :: ps) := by
  have hrule : Prints true ([] ++ (.atKeyword, keyword) :: src)
      ([] ++ (.atKeyword, keyword) :: ps) := by
    refine .next hplain areTrivia_nil rfl (Or.inl ⟨rfl, rfl⟩) ?_ hprints
    rintro (hkind | hkind) <;> exact absurd hkind (by simp)
  exact hrule.legible hplain (List.cons_ne_nil _ _)

/-- Pieces behind a blank spell a blank and their text, if there are any. -/
theorem spell_behindBlank (ps : List Piece) : spell (behindBlank ps) =
    (if ps.isEmpty then "" else " ").toList ++ spell ps := by
  rcases ps with _ | ⟨p, ps⟩ <;> rfl

/-- The pieces of tokens spell the texts of the tokens. -/
theorem spell_pieces (ts : List Token) : spell (ts.map Token.piece) = (spelling ts).toList :=
  (toList_spelling ts).symm

/-- Tokens of the same pieces are the same but for their places. -/
theorem map_unplaced_of_piece {ts us : List Token}
    (h : ts.map Token.piece = us.map Token.piece) :
    ts.map Token.unplaced = us.map Token.unplaced := by
  have hplace := congrArg (List.map fun p : Piece => (⟨p.1, p.2, .empty .null⟩ : Token)) h
  rwa [List.map_map, List.map_map] at hplace

end Token

/-! ### The print of an unknown rule -/

namespace UnknownRule

/-- The pieces at the end of an unknown rule: its block, or a semicolon. -/
def endPieces : Option (List Token) → List Piece
  | some block => blank :: (.openCurly, "\x7b") :: block.map Token.piece
  | none => [(.semicolon, ";")]

/-- The pieces that an unknown rule is printed in. -/
def pieces (rule : UnknownRule) : List Piece :=
  (.atKeyword, "@" ++ rule.name) ::
    (behindBlank (rule.preamble.map Token.piece) ++ endPieces rule.block)

/-- The pieces of an unknown rule spell the rule as it is printed. -/
theorem spell_pieces (rule : UnknownRule) : spell rule.pieces = rule.render.toList := by
  rcases rule with ⟨name, preamble, block⟩
  rw [pieces, spell_cons, spell_append, spell_behindBlank, Token.spell_pieces, render]
  rcases preamble with _ | ⟨t, ts⟩ <;> rcases block with _ | block <;>
    simp [endPieces, blank, Token.spell_pieces, Token.spelling]

/-- The rule that was kept of the pieces behind its at-keyword. -/
inductive KeptFrom (src : List Piece) : UnknownRule → Prop where
  /-- Up to a semicolon, or to the end of the source. -/
  | statement {name : String} {preamble : List Token} {before after : List Piece}
      (hpieces : src = before ++ after)
      (hpreamble : SingleSpaced true before (preamble.map Token.piece))
      (hgoes : ∀ k ∈ kinds before, Grammar.endsUnknownPreamble k = false) :
      KeptFrom src ⟨name, preamble, none⟩
  /-- With a block. -/
  | block {name : String} {preamble block : List Token} {before lead inside after : List Piece}
      (hpieces : src = before ++ (lead ++ (.openCurly, "\x7b") :: (inside ++ after)))
      (hpreamble : SingleSpaced true before (preamble.map Token.piece))
      (hgoes : ∀ k ∈ kinds before, Grammar.endsUnknownPreamble k = false)
      (hlead : AreTrivia lead) (hblock : SingleSpaced false inside (block.map Token.piece))
      (hcloses : (kinds inside).foldl Grammar.bracesAfter 1 = 0 →
        Grammar.Closes 1 (kinds inside)) :
      KeptFrom src ⟨name, preamble, some block⟩

/-- The tokens of an unknown rule would be kept as they are if they were read behind its name. -/
structure IsKeptAgain (rule : UnknownRule) : Prop where
  preamble : SingleSpaced true (rule.preamble.map Token.piece) (rule.preamble.map Token.piece)
  goes : ∀ k ∈ kinds (rule.preamble.map Token.piece), Grammar.endsUnknownPreamble k = false
  block : ∀ block, rule.block = some block →
    SingleSpaced false (block.map Token.piece) (block.map Token.piece) ∧
      Grammar.Closes 1 (kinds (block.map Token.piece))

/-- What was kept of lexemes around an opening brace was kept of their pieces. -/
theorem keptFrom_of_brace {name : String} {before inside : List Lexeme} {mark : Lexeme}
    {after : List Piece}
    (hbefore : ∀ lexeme ∈ before, Grammar.endsUnknownPreamble lexeme.kind = false)
    (hmark : mark.kind = .openCurly)
    (hcloses : (inside.map Lexeme.kind).foldl Grammar.bracesAfter 1 = 0 →
      Grammar.Closes 1 (inside.map Lexeme.kind))
    (hlexes : Lexes (Lexeme.pieces (before ++ mark :: inside) ++ after) []) :
    KeptFrom (Lexeme.pieces (before ++ mark :: inside) ++ after)
      ⟨name, Lexeme.keptAll true before, some (Lexeme.keptAll false inside)⟩ := by
  rw [Lexeme.pieces_around] at hlexes ⊢
  have hbehind := (lexes_append.1 (lexes_append.1 hlexes).2).2
  rw [← Lexeme.kinds_pieces] at hcloses
  rw [eq_of_spelling hbehind hmark rfl]
  exact .block rfl (Lexeme.singleSpaced_keptAll true hlexes) (Lexeme.forall_kinds_pieces.2 hbefore)
    mark.areTrivia_lead (Lexeme.singleSpaced_keptAll false hbehind.2) hcloses

/-- What was kept of lexemes was kept of their pieces. -/
theorem KeptOf.keptFrom {rule : UnknownRule} {consumed : List Lexeme} {ended : Bool}
    {after : List Piece} (h : rule.KeptOf consumed ended)
    (hlexes : Lexes (Lexeme.pieces consumed ++ after) []) :
    KeptFrom (Lexeme.pieces consumed ++ after) rule := by
  cases h with
  | statement hbefore _ =>
    rw [Lexeme.pieces_around] at hlexes ⊢
    exact .statement rfl (Lexeme.singleSpaced_keptAll true hlexes)
      (Lexeme.forall_kinds_pieces.2 hbefore)
  | block hbefore hmark hcloses => exact keptFrom_of_brace hbefore hmark (fun _ => hcloses) hlexes
  | unclosed hbefore hmark hopen =>
    exact keptFrom_of_brace hbefore hmark (fun hzero => absurd hzero hopen.foldl_ne_zero) hlexes
  | unended hbefore =>
    exact .statement rfl (Lexeme.singleSpaced_keptAll true hlexes)
      (Lexeme.forall_kinds_pieces.2 hbefore)

namespace KeptFrom

variable {src : List Piece} {rule : UnknownRule}

/-- A block that was closed would be kept again. -/
theorem block_again (h : KeptFrom src rule) (hclosed : rule.isClosed = true)
    (block : List Token) (hsome : rule.block = some block) :
    SingleSpaced false (block.map Token.piece) (block.map Token.piece) ∧
      Grammar.Closes 1 (kinds (block.map Token.piece)) := by
  cases h with
  | statement => exact absurd hsome (by simp)
  | @block _ _ block' _ _ _ _ _ _ _ _ hblock hcloses =>
    obtain rfl : block' = block := Option.some.inj hsome
    refine ⟨hblock.again, ?_⟩
    rw [hblock.kinds_eq]
    apply hcloses
    rw [← hblock.kinds_eq, foldl_bracesAfter_kinds, List.map_map]
    exact beq_iff_eq.1 hclosed

/-- A rule that was closed would be kept again. -/
theorem again (h : KeptFrom src rule) (hclosed : rule.isClosed = true) : rule.IsKeptAgain := by
  have hblock := h.block_again hclosed
  cases h with
  | statement _ hpreamble hgoes | block _ hpreamble hgoes =>
    exact ⟨hpreamble.again, by rwa [hpreamble.kinds_eq], hblock⟩

/-- Nothing is left open behind the brace that closes a block. -/
theorem followed_of_closes {inside bs : List Piece} (h : SingleSpaced false inside bs)
    (hcloses : Grammar.Closes 1 (kinds inside)) : SingleSpaced.Followed inside [] := by
  intro p hlast hopen
  have hbrace := hcloses.getLast? Nat.one_ne_zero
  rw [h.getLast?_kinds, hlast, Option.map_some, Option.some.injEq] at hbrace
  simp [leavesOpen, hbrace] at hopen

/-- An unknown rule that is closed is printed legibly. -/
theorem legible (h : KeptFrom src rule) (hplain : Plain ((.atKeyword, "@" ++ rule.name) :: src))
    (hclosed : rule.isClosed = true) : Legible rule.pieces := by
  have hends : Prints false [] [] := .ends (not_opensString (by simp))
  cases h with
  | @statement name preamble before after hpieces hpreamble _ =>
    rw [hpieces, ← List.cons_append] at hplain
    have hfront := hplain.front
    have hfollowed : SingleSpaced.Followed before [] := by
      intro p hlast hopen
      rw [isClosed, hpreamble.getLast?_eq, hlast] at hclosed
      simp [hopen] at hclosed
    have hbefore : Plain (before ++ []) := by
      rw [List.append_nil]
      exact hfront.tail
    have hprints := hpreamble.prints_behindBlank hbefore hfollowed hends
    rw [List.append_nil, List.append_nil] at hprints
    exact (legible_behindKeyword hfront hprints).append_mark alone_semicolon rfl
  | @block name preamble block before lead inside after hpieces hpreamble hgoes hlead hblock
      hcloses =>
    have hsplit : (Kind.atKeyword, "@" ++ name) ::
        (before ++ (lead ++ (.openCurly, "\x7b") :: (inside ++ after))) =
        ((.atKeyword, "@" ++ name) :: (before ++ (lead ++ (.openCurly, "\x7b") :: inside))) ++
          after := by simp
    rw [hpieces, hsplit] at hplain
    have hfront := hplain.front
    have hopening := hfront.tail.of_append.of_append
    have hinside : Plain (inside ++ []) := by
      rw [List.append_nil]
      exact hopening.tail
    have hkept : KeptFrom src ⟨name, preamble, some block⟩ :=
      .block hpieces hpreamble hgoes hlead hblock hcloses
    have hcount := (hkept.block_again hclosed block rfl).2
    rw [hblock.kinds_eq] at hcount
    have hblock := hblock.prints_append hinside (followed_of_closes hblock hcount) hends
    rw [List.append_nil, List.append_nil] at hblock
    have hbrace := prints_token hlead rfl (Or.inr ⟨rfl, Or.inl rfl⟩) hopening
      (fun hopen => absurd hopen (by decide)) hblock
    exact legible_behindKeyword hfront (hpreamble.prints_behindBlank hfront.tail
      (fun _ _ _ => ⟨_, List.mem_append_right _ List.mem_cons_self, rfl⟩) hbrace)

end KeptFrom

end UnknownRule

namespace Grammar

open Production Input

variable {config : Config} {ctx : Context} {i j : Input} {ps qs tail : List Piece}

/-! ### Reading a source -/

/-- An unknown rule that was read was kept of what stands behind its at-keyword, if such rules are
kept. -/
theorem unknownRule_yields (name : String) (position : Position) (hplain : Plain i.pieces) :
    (unknownRule (.ofConfig config) name position).Yields i fun result _ => ∀ r, result = some r →
      config.keepUnknownRules = true ∧
        ∃ rule, r = .unknown rule ∧ rule.name = name ∧ rule.KeptFrom i.pieces := by
  rcases hkeep : config.keepUnknownRules
  · refine (unknownRule_none hkeep name position).mono fun result _ hdropped r hr => ?_
    rw [hdropped] at hr
    exact absurd hr (by simp)
  refine (unknownRule_kept hkeep name position).mono fun result rest h r hr => ?_
  obtain ⟨rule, consumed, ended, hrule, hname, hahead, hkept, _⟩ := h
  obtain ⟨after, hafter⟩ := exists_pieces_of_ahead hahead
  refine ⟨rfl, rule, Option.some.inj (hr.symm.trans hrule), hname, ?_⟩
  rw [hafter] at hplain ⊢
  exact hkept.keptFrom hplain.lexes

/-! ### Reading a print -/

/-- What ends an unknown rule is read back. -/
theorem gives_unknownBlock {placed : Prop} {block? : Option (List Token)}
    (hblock : ∀ block, block? = some block →
      SingleSpaced false (block.map Token.piece) (block.map Token.piece) ∧
        Closes 1 (kinds (block.map Token.piece)))
    (hahead : j.Ahead (UnknownRule.endPieces block? ++ tail) placed) :
    ∃ again : Option (List Token), again.map (·.map Token.unplaced) =
      block?.map (·.map Token.unplaced) ∧ unknownBlock.Gives j again tail placed := by
  rcases block? with _ | block
  · have hahead : j.Ahead ((.semicolon, ";") :: tail) placed := hahead
    refine ⟨none, rfl, ?_⟩
    unfold unknownBlock
    apply Gives.view
    rw [hahead.kind, headKind_cons rfl]
    apply Gives.skip
    exact .pure (hahead.advance rfl)
  · obtain ⟨hspaced, hcloses⟩ := hblock block rfl
    have hahead : j.Ahead ((.openCurly, "\x7b") :: (block.map Token.piece ++ tail)) placed :=
      Ahead.tail (p := blank) hahead rfl
    obtain ⟨before, hfaces⟩ := hahead.faces rfl
    have hsize : j.advance.size ≤ j.size := by
      have := hfaces.size
      omega
    obtain ⟨ts, hts, hgives⟩ := gives_unknownBlockFrom hspaced hcloses (holds_advance hfaces)
      (hahead.advance rfl).offsets j.size hsize []
    refine ⟨some ts, congrArg some (map_unplaced_of_piece hts), ?_⟩
    unfold unknownBlock
    apply Gives.view
    rw [hahead.kind, headKind_cons rfl]
    apply Gives.skip
    exact hgives.bind fun rest _ hrest => .pure hrest

/-- What stands at the end of an unknown rule ends what stands before its block. -/
theorem endsUnknownPreamble_endPieces (block? : Option (List Token)) (tail : List Piece) :
    endsUnknownPreamble (headKind (UnknownRule.endPieces block? ++ tail)) = true := by
  rcases block? with _ | block <;> rfl

/-- An unknown rule whose tokens would be kept again is read back behind its at-keyword, up to the
places of its tokens. -/
theorem gives_unknownRule {placed : Prop} {rule : UnknownRule} (h : rule.IsKeptAgain)
    (hkeep : config.keepUnknownRules = true) (position : Position)
    (hahead : j.Ahead (behindBlank (rule.preamble.map Token.piece) ++
      (UnknownRule.endPieces rule.block ++ tail)) placed) :
    ∃ again : UnknownRule, again.mapTokens Token.unplaced = rule.mapTokens Token.unplaced ∧
      (unknownRule (.ofConfig config) rule.name position).Gives j (some (.unknown again)) tail
        placed := by
  have hahead : j.Ahead (rule.preamble.map Token.piece ++
      (UnknownRule.endPieces rule.block ++ tail)) placed := by
    rcases hpieces : rule.preamble.map Token.piece with _ | ⟨p, ps⟩
    · rwa [hpieces] at hahead
    · rw [hpieces] at hahead
      exact Ahead.tail (p := blank) hahead rfl
  have hends := endsUnknownPreamble_endPieces rule.block tail
  obtain ⟨ts, hts, hfirst⟩ :=
    gives_unknownPreambleFrom h.preamble h.goes hends hahead j.size (Nat.le_refl _)
  obtain ⟨block?, hblock?, hblock⟩ := gives_unknownBlock h.block hfirst.rest
  refine ⟨⟨rule.name, ts, block?⟩, ?_, ?_⟩
  · rw [UnknownRule.mapTokens, UnknownRule.mapTokens, hblock?, map_unplaced_of_piece hts]
  · unfold unknownRule
    simp only [Context.ofConfig, hkeep, if_true]
    apply Gives.view
    apply hfirst.bind_rest
    exact hblock.bind fun rest _ hrest => .pure hrest

/-- A rule that starts with an at-keyword of no meaning is an unknown rule. -/
theorem read_ruleWithin_unknown (ctx : Context) (depth : Nat) (hkind : i.view.kind = .atKeyword)
    (hname : AtKeyword.ofName i.view.token.name = .unknown) :
    (ruleWithin ctx (depth + 1)).read i =
      (unknownRule ctx i.view.token.name i.view.token.span.start).read i.advance := by
  rw [read_ruleWithin_atRule ctx depth hkind, atRule_eq, read_bind, read_take, if_pos hname]
  rfl

/-- An unknown rule whose tokens would be kept again is read from its pieces, up to the places of
its tokens. -/
theorem gives_unknown {placed : Prop} {rule : UnknownRule} (h : rule.IsKeptAgain)
    (hname : AtKeyword.ofName rule.name = .unknown) (hkeep : config.keepUnknownRules = true)
    (hahead : j.Ahead (rule.pieces ++ tail) placed) (depth : Nat) :
    ∃ again : UnknownRule, again.mapTokens Token.unplaced = rule.mapTokens Token.unplaced ∧
      (ruleWithin (.ofConfig config) (depth + 1)).Gives j (some (.unknown again)) tail placed := by
  have hahead : j.Ahead ((.atKeyword, "@" ++ rule.name) ::
      (behindBlank (rule.preamble.map Token.piece) ++
        UnknownRule.endPieces rule.block ++ tail)) placed := hahead
  have hkind : j.view.token.kind = .atKeyword := hahead.kind
  have hname' : j.view.token.name = rule.name := by
    rw [Token.name, hkind, hahead.text rfl]
    simp
  have hread := read_ruleWithin_unknown (.ofConfig config) depth hkind (by rw [hname', hname])
  rw [hname'] at hread
  have hbody := hahead.advance rfl
  rw [List.append_assoc] at hbody
  obtain ⟨again, hagain, hgives⟩ := gives_unknownRule h hkeep _ hbody
  exact ⟨again, hagain, hgives.congr hread⟩

/-- A closed unknown rule is read back, up to the places of its tokens. -/
theorem reads_back_of_keptFrom {rule : UnknownRule} {src : List Piece} (h : rule.KeptFrom src)
    (hplain : Plain ((.atKeyword, "@" ++ rule.name) :: src))
    (hname : AtKeyword.ofName rule.name = .unknown) (hkeep : config.keepUnknownRules = true)
    (hclosed : rule.isClosed = true) :
    RuleReadsBack (unplacedWithin (.ofConfig config)) (Rule.unknown rule).unplaced := by
  refine ⟨rule.pieces, ?_, h.legible hplain hclosed, rfl, ?_⟩
  · rw [Rule.render_unplaced, rule.spell_pieces]
    rfl
  · intro bound input tail hahead _ hsize
    obtain ⟨n, rfl⟩ : ∃ n, bound = n + 1 := ⟨bound - 1, by omega⟩
    obtain ⟨again, hagain, hgives⟩ := gives_unknown (h.again hclosed) hname hkeep hahead n
    have hrule := hgives.map (g := Option.map Rule.unplaced)
    have hsame : (Rule.unknown rule).unplaced = (Rule.unknown again).unplaced := by
      rw [Rule.unplaced, Rule.unplaced, Rule.mapParts, Rule.mapParts, hagain]
    rw [hsame]
    exact hrule

/-- The rule is read back, up to the places of tokens, if it is closed. It is where no unknown rules
are kept. -/
def ReadsIfClosed (config : Config) (r : Rule) : Prop :=
  (config.keepUnknownRules = true → r.isClosed = true) →
    RuleReadsBack (unplacedWithin (.ofConfig config)) r.unplaced

/-- Whatever unknown rule was read is read back if it is closed. -/
theorem unknownRule_reads_back (hplain : Plain i.pieces) (hkind : i.view.kind = .atKeyword)
    (hname : AtKeyword.ofName i.view.token.name = .unknown) :
    (unknownRule (.ofConfig config) i.view.token.name i.view.token.span.start).Yields i.advance
      fun result _ => ∀ r, result = some r → r.nested? = none ∧ ReadsIfClosed config r := by
  have hsource := plain_of_kind hplain hkind rfl
  refine (unknownRule_yields _ _ hsource.tail).mono fun result _ h r hr => ?_
  obtain ⟨hkeep, rule, rfl, hrule, hkept⟩ := h r hr
  refine ⟨rfl, fun hclosed => ?_⟩
  refine reads_back_of_keptFrom hkept ?_ (by rw [hrule, hname]) hkeep (hclosed hkeep)
  rwa [hrule, ← text_of_keyword hkind hsource.first_eq]

end Grammar

end Cssom
