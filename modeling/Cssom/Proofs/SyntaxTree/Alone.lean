import Cssom.Proofs.Reading.Completion
import Cssom.Proofs.SyntaxTree.Rules
import Cssom.Proofs.Token.Scan
import Mathlib.Data.List.TakeWhile

/-!
# A rule by itself

The tokens of the frame of a rule are a style sheet of their own, which holds just that rule
(`rules_stand_alone`). They are the lexemes of the rule, without the trivia before the first of
them, which no rule looks at; and with what stands before the next rule or at the end of the source.
If something comes after the rule, its tokens are the source cut short; if nothing does, they are
the rest of the source, and end where it ends.
-/

namespace Cssom

open SyntaxTree Production

/-! ### Lexemes -/

namespace Lexeme

/-- Trivia alone are grouped into no lexeme, and are left over. -/
theorem group_of_insignificant {trailing : List Token}
    (h : ∀ t ∈ trailing, t.kind.isSignificant = false) : group trailing = ([], trailing) := by
  induction trailing with
  | nil => rfl
  | cons token rest ih =>
    have htoken := h token List.mem_cons_self
    rw [group, ih fun t ht => h t (List.mem_cons_of_mem _ ht)]
    simp [htoken]

/-- Tokens that begin with those of a lexeme are grouped into that lexeme first. -/
theorem group_tokens_append (lexeme : Lexeme) (rest : List Token) :
    group (lexeme.tokens ++ rest) = (lexeme :: (group rest).1, (group rest).2) := by
  obtain ⟨lead, token, hsignificant, hlead⟩ := lexeme
  induction lead with
  | nil =>
    change group (token :: rest) = _
    rw [group]
    simp [hsignificant]
  | cons first lead ih =>
    have hfirst := hlead first List.mem_cons_self
    have hrest : ∀ t ∈ lead, t.kind.isSignificant = false :=
      fun t ht => hlead t (List.mem_cons_of_mem _ ht)
    change group (first :: (Lexeme.tokens ⟨lead, token, hsignificant, hrest⟩ ++ rest)) = _
    rw [group, ih hrest]
    simp [hfirst, precede]

/-- Lexemes are cut again as they were put together. -/
theorem group_ungroup (lexemes : List Lexeme) {trailing : List Token}
    (h : ∀ t ∈ trailing, t.kind.isSignificant = false) :
    group (ungroup lexemes ++ trailing) = (lexemes, trailing) := by
  induction lexemes with
  | nil => exact group_of_insignificant h
  | cons lexeme rest ih =>
    rw [ungroup, List.flatMap_cons, List.append_assoc, group_tokens_append]
    rw [ungroup] at ih
    rw [ih]

/-- No trivia are all insignificant. -/
theorem insignificant_nil : ∀ t ∈ ([] : List Token), t.kind.isSignificant = false :=
  List.forall_mem_nil _

/-- The lexeme without the trivia before its token. -/
def bare (lexeme : Lexeme) : Lexeme where
  lead := []
  token := lexeme.token
  significant := lexeme.significant
  lead_insignificant := insignificant_nil

end Lexeme

/-! ### Inputs -/

namespace Input

/-- Two inputs are the same if they go on alike and end at the same place. -/
theorem eq_of {i j : Input} (hahead : i.ahead = j.ahead) (htrailing : i.trailing = j.trailing)
    (heof : i.eof = j.eof) : i = j := by
  obtain ⟨ahead, trailing, eof, size, hsize, _, _⟩ := i
  obtain ⟨ahead', trailing', eof', size', hsize', _, _⟩ := j
  subst hahead htrailing heof hsize hsize'
  rfl

/-- What is ahead in a list of tokens that was put together. -/
theorem ofTokens_ungroup {tokens : List Token} {lexemes : List Lexeme} {trailing : List Token}
    (h : tokens = Lexeme.ungroup lexemes ++ trailing) (hkinds : ∀ t ∈ tokens, t.kind ≠ .eof)
    (htrailing : ∀ t ∈ trailing, t.kind.isSignificant = false) :
    (ofTokens tokens).ahead = lexemes ∧ (ofTokens tokens).trailing = trailing := by
  have htake : tokens.takeWhile (·.kind != .eof) = tokens :=
    List.takeWhile_eq_self_iff.2 fun t ht => bne_iff_ne.2 (hkinds t ht)
  have hgroup : Lexeme.group (tokens.takeWhile (·.kind != .eof)) = (lexemes, trailing) := by
    rw [htake, h, Lexeme.group_ungroup lexemes htrailing]
  exact ⟨congrArg Prod.fst hgroup, congrArg Prod.snd hgroup⟩

/-- The end of a list whose last token is not one. -/
theorem eof_ofTokens {before : List Token} {last : Token} (h : last.kind ≠ .eof) :
    (ofTokens (before ++ [last])).eof = Token.endAt last.span.stop := by
  change (Token.Supply.endOf (before ++ [last])).1 = _
  unfold Token.Supply.endOf
  simp [h]

/-- The tokens from the cursor on are the last tokens of the input. -/
theorem fromCursor_suffix (input : Input) : input.fromCursor <:+ input.tokens := by
  rw [← fetched_append_beyondCursor, fetched_eq, fromCursor_eq, List.append_assoc]
  exact List.suffix_append _ _

/-- As long as something is ahead, what stands after the last lexeme stays. -/
theorem Reaches.trailing_eq {a b : Input} (h : a.Reaches b) (hb : b.ahead ≠ []) :
    b.trailing = a.trailing := by
  obtain ⟨n, rfl⟩ := h
  induction n generalizing a with
  | zero => rfl
  | succ n ih =>
    have ha : a.ahead.isEmpty = false := by
      rw [List.isEmpty_eq_false_iff]
      intro hnil
      rw [ahead_advanceBy, hnil, List.drop_nil] at hb
      exact hb rfl
    rw [advanceBy, ih hb]
    change (if a.ahead.isEmpty then [] else a.trailing) = a.trailing
    rw [ha]
    rfl

/-- Two inputs with the same token under the cursor, which go on alike. What stands before that
token may differ. -/
structure Alike (i j : Input) : Prop where
  current_eq : i.current = j.current
  advance_eq : i.advance = j.advance
  size_eq : i.size = j.size

namespace Alike

variable {i j : Input}

/-- An input whose first lexeme lost the trivia before it. -/
theorem of_bare {lexeme : Lexeme} {rest : List Lexeme} (hi : i.ahead = lexeme :: rest)
    (hj : j.ahead = lexeme.bare :: rest) (htrailing : i.trailing = j.trailing)
    (heof : i.eof = j.eof) : i.Alike j where
  current_eq := by
    unfold current
    rw [hi, hj]
    rfl
  advance_eq := by
    refine eq_of ?_ ?_ heof
    · rw [ahead_advance, ahead_advance, hi, hj]
      rfl
    · change i.trailingAfter = j.trailingAfter
      rw [trailingAfter, trailingAfter, hi, hj, htrailing]
      rfl
  size_eq := by
    rw [i.size_eq, j.size_eq, hi, hj]
    rfl

/-- The same kind stands under the cursor of inputs that are alike. -/
theorem kind_eq (h : i.Alike j) : i.view.kind = j.view.kind :=
  congrArg Token.kind h.current_eq

/-- Inputs that are alike have equally many tokens ahead. -/
theorem exists_size_eq (h : i.Alike j) (hi : i.ahead ≠ []) :
    ∃ n, i.size = n + 1 ∧ j.size = n + 1 := by
  rw [ne_eq, ← i.size_eq_zero_iff] at hi
  have hsize := h.size_eq
  exact ⟨i.size - 1, by omega, by omega⟩

end Alike

end Input

namespace Grammar

variable {ctx : Context} {i j : Input}

/-- Passing over a rule leaves the same behind in inputs that are alike, though what stands before
the cursor may differ. -/
theorem passRule_alike (h : i.Alike j) (hi : i.ahead ≠ []) : passRule.read i = passRule.read j := by
  obtain ⟨n, hn⟩ := h.exists_size_eq hi
  have hend : i.view.atEnd = false :=
    beq_false_of_ne fun heof => hi (i.kind_view_eq_eof_iff.1 heof)
  have hend' : j.view.atEnd = false := (congrArg (· == Token.Kind.eof) h.kind_eq).symm.trans hend
  have hsize : i.view.size = n + 1 := hn.1
  have hsize' : j.view.size = n + 1 := hn.2
  simp only [passRule, read_bind, read_view, hsize, hsize', passRuleFrom, hend, hend', h.kind_eq,
    read_skip, h.advance_eq, Bool.false_eq_true, if_false]
  rfl

/-- A selector list does not look at what stands before its first token. -/
theorem feed_empty (token : Token) (spacing spacing' : Spacing) :
    SelectorList.Builder.empty.feed token spacing =
      SelectorList.Builder.empty.feed token spacing' := rfl

/-- A selector list is read alike in inputs that are alike, as long as it does not end at once. -/
theorem selectorList_alike (h : i.Alike j) (hi : i.ahead ≠ [])
    (hk : endsSelectors i.view.kind = false) : selectorList.read i = selectorList.read j := by
  obtain ⟨n, hn⟩ := h.exists_size_eq hi
  have hsize : i.view.size = n + 1 := hn.1
  have hsize' : j.view.size = n + 1 := hn.2
  have htoken : i.view.token = j.view.token := h.current_eq
  have hk' : endsSelectors j.view.kind = false := h.kind_eq ▸ hk
  simp only [selectorList, read_enclosed, read_bind, read_view, hsize, hsize', selectorsFrom, hk,
    hk', read_skip, h.advance_eq, htoken, feed_empty _ i.view.spacing j.view.spacing,
    Bool.false_eq_true, if_false]

/-- No rule looks at what stands before its first token. -/
theorem rule_alike (ctx : Context) (h : i.Alike j) (hi : i.ahead ≠ []) :
    (rule ctx).read i = (rule ctx).read j := by
  have htoken : i.view.token = j.view.token := h.current_eq
  have hposition : i.view.position = j.view.position := congrArg (·.span.start) h.current_eq
  have habandon (cause : String → Cause) :
      (abandonRule cause).read i = (abandonRule cause).read j := by
    simp only [abandonRule, read_bind, read_complainOf, htoken, hposition, passRule_alike h hi,
      read_pure]
  have heof : i.view.kind ≠ .eof := fun heof => hi (i.kind_view_eq_eof_iff.1 heof)
  rw [read_rule, read_rule, ← h.kind_eq]
  generalize hk : i.view.kind = k at heof
  unfold ruleStarting
  split
  · exact absurd rfl heof
  · simp only [atRule, read_bind, read_take, htoken, h.advance_eq]
  all_goals try exact habandon _
  next hopen _ _ _ _ hclose _ _ =>
    have hends : endsSelectors i.view.kind = false := by
      simp_all [endsSelectors]
    simp only [styleRule, read_bind, read_view, hposition, selectorList_alike h hi hends]

/-! ### The tokens of the frame of a rule -/

section

variable {input : Input} {r : Rule} {f : SyntaxTree}

/-- A rule is read from some token at least. -/
theorem ahead_ne_nil_of_result (h : ((rule ctx).read input).result = some r) :
    input.ahead ≠ [] := by
  intro hnil
  rw [read_rule, input.kind_view_eq_eof_iff.2 hnil] at h
  cases h

/-- The tokens of the frame, and then those behind the rule, are those from its first one on. -/
theorem tokens_frame (hnodes : (rule ctx).nodes input = [f]) :
    f.tokens ++ ((rule ctx).read input).rest.fromCursor = input.fromCursor := by
  have hcovers := (rule ctx).allTokens_nodes input
  rwa [hnodes, Builder.allTokens_singleton] at hcovers

/-- A rule takes its first lexeme and perhaps more, up to where it stops. -/
theorem exists_taken (h : ((rule ctx).read input).result = some r) : ∃ lexeme more,
    input.ahead = lexeme :: more ++ ((rule ctx).read input).rest.ahead := by
  have hne := ahead_ne_nil_of_result h
  have hkind : input.view.kind ≠ .eof := by rwa [ne_eq, input.kind_view_eq_eof_iff]
  have hadvances : (rule ctx).Advances (.ofInput input false) :=
    advances_rule (hasTokens_of_kind_ne hkind)
  have hlt := size_read_lt hadvances
  obtain ⟨taken, htaken⟩ := ((rule ctx).read_reaches input).suffix
  cases taken with
  | nil =>
    rw [Input.size_eq, Input.size_eq, ← htaken] at hlt
    exact absurd hlt (Nat.lt_irrefl _)
  | cons lexeme more => exact ⟨lexeme, more, htaken.symm⟩

/-- The tokens from the cursor on are the first token ahead and all that follows it. -/
theorem fromCursor_of_ahead {input : Input} {lexeme : Lexeme} {rest : List Lexeme}
    (h : input.ahead = lexeme :: rest) :
    input.fromCursor = lexeme.token :: (Lexeme.ungroup rest ++ input.trailing) := by
  simp [Input.fromCursor, h, Input.tokens, Input.advance, Input.trailingAfter]

/-- If something comes after the rule, its frame holds its lexemes, and the trivia before the next
one. -/
theorem tokens_before_next {lexeme next : Lexeme} {more after : List Lexeme}
    (hnodes : (rule ctx).nodes input = [f])
    (hrest : ((rule ctx).read input).rest.ahead = next :: after)
    (hahead : input.ahead = lexeme :: more ++ next :: after) :
    f.tokens = lexeme.token :: (Lexeme.ungroup more ++ next.lead) := by
  have htokens := tokens_frame hnodes
  have htrailing := ((rule ctx).read_reaches input).trailing_eq (by rw [hrest]; nofun)
  rw [fromCursor_of_ahead hrest, htrailing, fromCursor_of_ahead hahead] at htokens
  have hsplit : lexeme.token :: (Lexeme.ungroup (more ++ next :: after) ++ input.trailing) =
      lexeme.token :: (Lexeme.ungroup more ++ next.lead) ++
        next.token :: (Lexeme.ungroup after ++ input.trailing) := by
    simp [Lexeme.ungroup, Lexeme.tokens]
  exact List.append_cancel_right (htokens.trans hsplit)

/-- If nothing comes after the rule, its frame holds all that is left. -/
theorem tokens_to_end (hnodes : (rule ctx).nodes input = [f])
    (hrest : ((rule ctx).read input).rest.ahead = []) : f.tokens = input.fromCursor := by
  have htokens := tokens_frame hnodes
  rwa [Input.fromCursor, hrest, List.append_nil] at htokens

/-- Where something comes after the rule, its tokens are the source cut short. -/
theorem read_before_next {lexeme next : Lexeme} {more after : List Lexeme}
    (hresult : ((rule ctx).read input).result = some r) (hnodes : (rule ctx).nodes input = [f])
    (hkinds : ∀ t ∈ f.tokens, t.kind ≠ .eof)
    (hrest : ((rule ctx).read input).rest.ahead = next :: after)
    (hahead : input.ahead = lexeme :: more ++ next :: after) :
    ((rule ctx).read (.ofTokens f.tokens)).result = some r ∧
      ((rule ctx).read (.ofTokens f.tokens)).rest.ahead = [] := by
  have hne := ahead_ne_nil_of_result hresult
  have htokens : f.tokens = Lexeme.ungroup (lexeme.bare :: more) ++ next.lead := by
    rw [tokens_before_next hnodes hrest hahead]
    rfl
  have hshort := (Input.ofTokens_ungroup htokens hkinds next.lead_insignificant).1
  let whole : Input :=
    { input with
      ahead := lexeme.bare :: more ++ next :: after
      size_eq := by rw [input.size_eq, hahead]; rfl }
  have halike : input.Alike whole := .of_bare hahead rfl rfl rfl
  have hcut : whole.CutAt (next :: after) (.ofTokens f.tokens) := by
    change _ = (Input.ofTokens f.tokens).ahead ++ next :: after
    rw [hshort]
  rw [rule_alike ctx halike hne] at hresult hrest
  exact result_rule ctx (List.cons_ne_nil next after) hcut hrest hresult

/-- Where nothing comes after the rule, its tokens are the rest of the source, and have the same
end. -/
theorem read_to_end {lexeme : Lexeme} {more : List Lexeme}
    (hresult : ((rule ctx).read input).result = some r) (hnodes : (rule ctx).nodes input = [f])
    (hkinds : ∀ t ∈ f.tokens, t.kind ≠ .eof)
    (heof : input.eof = (Input.ofTokens f.tokens).eof)
    (hrest : ((rule ctx).read input).rest.ahead = []) (hahead : input.ahead = lexeme :: more) :
    ((rule ctx).read (.ofTokens f.tokens)).result = some r ∧
      ((rule ctx).read (.ofTokens f.tokens)).rest.ahead = [] := by
  have htokens : f.tokens = Lexeme.ungroup (lexeme.bare :: more) ++ input.trailing := by
    rw [tokens_to_end hnodes hrest, fromCursor_of_ahead hahead]
    rfl
  obtain ⟨hshort, htrailing⟩ :=
    Input.ofTokens_ungroup htokens hkinds input.trailing_insignificant
  have halike : input.Alike (.ofTokens f.tokens) := .of_bare hahead hshort htrailing.symm heof
  rw [← rule_alike ctx halike (ahead_ne_nil_of_result hresult)]
  exact ⟨hresult, hrest⟩

/-- An input that holds just a rule is a style sheet of just that rule. -/
theorem result_stylesheet (hresult : ((rule ctx).read input).result = some r)
    (hrest : ((rule ctx).read input).rest.ahead = []) :
    ((stylesheet ctx).read input).result = ⟨[r]⟩ := by
  have hne := ahead_ne_nil_of_result hresult
  have hstart : input.view.atEnd = false :=
    beq_false_of_ne fun heof => hne (input.kind_view_eq_eof_iff.1 heof)
  have hend : ((rule ctx).read input).rest.view.atEnd = true :=
    beq_iff_eq.2 ((Input.kind_view_eq_eof_iff _).2 hrest)
  have hguard : ((passIfStuck input.view.offset).read ((rule ctx).read input).rest).rest =
      ((rule ctx).read input).rest := by
    change ((if !((rule ctx).read input).rest.view.atEnd && _ then _ else _ :
      Production Unit).read ((rule ctx).read input).rest).rest = _
    rw [hend]
    rfl
  have hstop (rounds : Nat) : ((stylesheetFrom ctx rounds [r]).read
      ((rule ctx).read input).rest).result = ⟨[r]⟩ := by
    cases rounds with
    | zero => rfl
    | succ rounds => rw [stylesheetFrom, result_read_bind, read_view, hend]; rfl
  obtain ⟨n, hn⟩ : ∃ n, input.view.size = n + 1 := by
    rw [ne_eq, ← input.size_eq_zero_iff] at hne
    exact ⟨input.size - 1, Nat.succ_pred_eq_of_ne_zero hne |>.symm⟩
  rw [stylesheet, result_read_bind, read_view, hn, stylesheetFrom, result_read_bind, read_view,
    hstart]
  simp only [Bool.false_eq_true, if_false, result_read_bind, hresult, hguard]
  exact hstop n

end

end Grammar

/-! ### Frames of rules -/

/-- Placed pieces are followed by the end of the source. -/
theorem Token.place_ne_nil (file : String) (offset : Nat) (ps : List (Token.Kind × String)) :
    Token.place file offset ps ≠ [] := by
  cases ps <;> exact List.cons_ne_nil _ _

/-- The end of a source is where its last token stops. -/
theorem Token.end_of_place {file : String} {offset : Nat} {ps : List (Token.Kind × String)}
    {before : List Token} {last eof : Token}
    (h : Token.place file offset ps = before ++ [last, eof]) :
    eof = Token.endAt last.span.stop := by
  induction before generalizing offset ps with
  | nil =>
    rcases ps with _ | ⟨p, _ | ⟨q, ps⟩⟩ <;>
      simp only [Token.place, List.nil_append, List.cons.injEq, and_true] at h
    · exact absurd h.2.symm (List.cons_ne_nil _ _)
    · rw [← h.1, ← h.2]
    · exact absurd h.2.2 (Token.place_ne_nil _ _ _)
  | cons first before ih =>
    cases ps with
    | nil =>
      simp only [Token.place, List.cons_append, List.cons.injEq] at h
      exact absurd h.2.symm (List.append_ne_nil_of_right_ne_nil _ (List.cons_ne_nil _ _))
    | cons p ps =>
      rw [Token.place, List.cons_append, List.cons.injEq] at h
      exact ih h.2

/-- The end of a scanned source is where its last token stops. -/
theorem Token.eof_of_scan {source : String} {file : Option String} {tokens before : List Token}
    {last : Token} (h : Token.scan source file = .ok tokens)
    (hlast : tokens.takeWhile (·.kind != .eof) = before ++ [last]) :
    (Input.ofTokens tokens).eof = Token.endAt last.span.stop := by
  rw [Token.scan_eq_tokenize] at h
  obtain rfl : Token.tokenize source file = tokens := Except.ok.inj h
  obtain ⟨ts, eof, htokens, heof, -, htake⟩ := Token.tokenize_eq source file
  have hplace := htokens
  rw [← htake, hlast, List.append_assoc] at hplace
  change (Token.Supply.endOf (Token.tokenize source file)).1 = _
  rw [← Token.end_of_place hplace, htokens]
  unfold Token.Supply.endOf
  simp [heof]

section

variable {config : Config} {source : String} {file : Option String} {tokens : List Token}
  {f : SyntaxTree} {r : Rule} {input : Input}

/-- A rule that was read somewhere in a source is read from the tokens of its frame alone. -/
theorem Grammar.read_alone {ctx : Context} (h : Token.scan source file = .ok tokens)
    (hreach : (Input.ofTokens tokens).Reaches input)
    (hresult : ((rule ctx).read input).result = some r) (hnodes : (rule ctx).nodes input = [f]) :
    ((rule ctx).read (.ofTokens f.tokens)).result = some r ∧
      ((rule ctx).read (.ofTokens f.tokens)).rest.ahead = [] := by
  obtain ⟨lexeme, more, hahead⟩ := exists_taken hresult
  have hsuffix : input.fromCursor <:+ tokens.takeWhile (·.kind != .eof) := by
    rw [← Input.tokens_ofTokens]
    exact input.fromCursor_suffix.trans hreach.tokens_suffix
  have hkinds : ∀ t ∈ f.tokens, t.kind ≠ .eof := by
    intro t ht
    have hmem : t ∈ input.fromCursor := by
      rw [← tokens_frame hnodes]
      exact List.mem_append_left _ ht
    simpa using List.mem_takeWhile_imp (hsuffix.subset hmem)
  cases hrest : ((rule ctx).read input).rest.ahead with
  | cons next after => exact read_before_next hresult hnodes hkinds hrest (hrest ▸ hahead)
  | nil =>
    have hall := tokens_to_end hnodes hrest
    rw [hrest, List.append_nil] at hahead
    refine read_to_end hresult hnodes hkinds ?_ hrest hahead
    have hne : f.tokens ≠ [] := by
      rw [hall, fromCursor_of_ahead hahead]
      exact List.cons_ne_nil _ _
    obtain ⟨before, last, hlast⟩ := (List.eq_nil_or_concat' f.tokens).resolve_left hne
    obtain ⟨earlier, hearlier⟩ := hsuffix
    rw [← hall, hlast, ← List.append_assoc] at hearlier
    have hkind := hkinds last (by rw [hlast]; exact List.mem_append_right _ List.mem_cons_self)
    rw [hreach.eof_eq, Token.eof_of_scan h hearlier.symm, hlast, Input.eof_ofTokens hkind]

/-- The frame of a rule in the tree of a source, by itself. -/
theorem Grammar.StandsFor.alone (h : Token.scan source file = .ok tokens)
    (hf : StandsFor (.ofConfig config) (.ofTokens tokens) f r)
    (hr : ∀ frame, r ≠ .keyframe frame) :
    (Stylesheet.parse f.tokens config).1 = ⟨[r]⟩ := by
  cases hf with
  | moment _ frame => exact absurd rfl (hr frame)
  | rule hreach hresult hnodes =>
    obtain ⟨hsame, hrest⟩ := read_alone h hreach hresult hnodes
    have hsheet := run_result (stylesheet (Context.ofConfig config)) (.ofTokens f.tokens config)
    exact hsheet.trans (result_stylesheet hsame hrest)

end

/-- A rule hangs on its own tokens only. In the tree that is kept of a source, the frames of rules,
however deep, show the rules of the style sheet, however deep, one by one; and but for moments of
animations, the tokens of such a frame alone are read to their end as a style sheet of exactly the
one rule that the frame shows. -/
theorem rules_stand_alone (source : String) (file : Option String) (config : Config)
    (tokens : List Token) (hscan : Token.scan source file = .ok tokens)
    (hkeep : config.keepTree = true) :
    ∃ tree, (Stylesheet.parse tokens config).2.syntaxTree = some tree ∧
      List.Forall₂ (fun f r => Shows f r ∧ ((∀ frame, r ≠ .keyframe frame) →
          (Stylesheet.parse f.tokens config).1 = ⟨[r]⟩ ∧
          (Stylesheet.parse f.tokens config).2.hasTokens = false))
        (tree.frames.filter isRule)
        (Rule.everyRule (Stylesheet.parse tokens config).1.rules) := by
  obtain ⟨nodes, htree, hgrows⟩ := Stylesheet.exists_tree tokens hkeep
  refine ⟨_, htree, hgrows.every.imp fun f r hfr => ⟨hfr.1, fun hr => ⟨?_, ?_⟩⟩⟩
  · exact hfr.2.alone hscan hr
  · exact Grammar.hasTokens_readStylesheet _ _

/-- A group of two rules: the group itself, and each of the two. -/
theorem rules_stand_alone_in_a_group :
    let source := "@media x { a { b: c } d { } }"
    let tokens := Token.tokenize source none
    let config := { Config.strict with keepTree := true }
    ∃ tree, (Stylesheet.parse tokens config).2.syntaxTree = some tree ∧
      List.Forall₂ (fun f r => Shows f r ∧ ((∀ frame, r ≠ .keyframe frame) →
          (Stylesheet.parse f.tokens config).1 = ⟨[r]⟩ ∧
          (Stylesheet.parse f.tokens config).2.hasTokens = false))
        (tree.frames.filter isRule)
        (Rule.everyRule (Stylesheet.parse tokens config).1.rules) :=
  rules_stand_alone _ none _ _ (Token.scan_eq_tokenize _ none) rfl

end Cssom
