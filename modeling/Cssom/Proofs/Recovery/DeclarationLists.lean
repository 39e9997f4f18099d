import Cssom.Parser.Entry
import Cssom.Proofs.Printing.Rule
import Cssom.Proofs.Recovery.Declarations

/-!
# Lists of declarations

A list of declarations that closes its brackets stands alone: whatever follows it, it gives the same
properties and the same is reported (`declarations_stand_alone`). Its tokens are cut into the same
lexemes by themselves as before a brace or a semicolon, but for the trivia at its end, which come
with what follows (`Lexeme.group_append_cons`). A style rule is a selector list, which stops at the
brace as it stops where its tokens end, and such a list of declarations.
-/

namespace Cssom

open Grammar Production Token

/-! ### Tokens and lexemes -/

namespace Lexeme

/-- Tokens that were cut into lexemes are cut into them again, whatever follows. -/
theorem group_ungroup_append (lexemes : List Lexeme) (rest : List Token) :
    group (ungroup lexemes ++ rest) = (lexemes ++ (group rest).1, (group rest).2) := by
  induction lexemes with
  | nil => rfl
  | cons lexeme lexemes ih =>
    rw [ungroup, List.flatMap_cons, List.append_assoc, group_tokens_append]
    rw [ungroup] at ih
    rw [ih]
    rfl

/-- A significant token after a list, with the trivia at the end of the list. -/
def behind (tokens : List Token) (token : Token) (h : token.kind.isSignificant = true) : Lexeme :=
  ⟨(group tokens).2, token, h, group_trailing tokens⟩

/-- Tokens before a significant one are cut as by themselves, but for the trivia at their end, which
come with that one. -/
theorem group_append_cons (tokens : List Token) {token : Token}
    (h : token.kind.isSignificant = true) (rest : List Token) :
    group (tokens ++ token :: rest) =
      ((group tokens).1 ++ behind tokens token h :: (group rest).1, (group rest).2) := by
  have hsplit : tokens ++ token :: rest =
      ungroup (group tokens).1 ++ ((behind tokens token h).tokens ++ rest) := by
    conv_lhs => rw [← ungroup_group tokens]
    simp [behind, Lexeme.tokens]
  rw [hsplit, group_ungroup_append, group_tokens_append]

end Lexeme

/-- The tokens of an input are cut into its lexemes. -/
theorem Input.group_tokens (input : Input) :
    Lexeme.group input.tokens = (input.ahead, input.trailing) :=
  Lexeme.group_ungroup input.ahead input.trailing_insignificant

/-- The lexemes ahead are what the tokens are cut into. -/
theorem Input.ahead_eq {input : Input} {tokens : List Token} (h : input.tokens = tokens) :
    input.ahead = (Lexeme.group tokens).1 := by
  rw [← h, input.group_tokens]

/-- What follows them is what follows these. -/
theorem Input.trailing_eq {input : Input} {tokens : List Token} (h : input.tokens = tokens) :
    input.trailing = (Lexeme.group tokens).2 := by
  rw [← h, input.group_tokens]

/-- An input holds the tokens it was made of, if none of them is of kind EOF. -/
theorem Input.tokens_ofTokens_eq {tokens : List Token} (h : ∀ t ∈ tokens, t.kind ≠ .eof) :
    (Input.ofTokens tokens).tokens = tokens :=
  (Input.tokens_ofTokens tokens).trans
    (List.takeWhile_eq_self_iff.2 fun t ht => bne_iff_ne.2 (h t ht))

/-- The token behind a list, and what is left once it was taken. -/
theorem Input.tokens_behind {input : Input} {list after : List Token} {token : Token}
    (h : token.kind.isSignificant = true)
    (hahead : input.ahead = .behind list token h :: (Lexeme.group after).1)
    (htrailing : input.trailing = (Lexeme.group (list ++ token :: after)).2) :
    input.view.token = token ∧ input.advance.tokens = after := by
  constructor
  · rw [Input.view, Input.current, hahead]
    rfl
  · have hafter : input.advance.trailing = (Lexeme.group after).2 := by
      rw [trailing_advance (hahead ▸ List.cons_ne_nil _ _), htrailing,
        Lexeme.group_append_cons list h]
    rw [Input.tokens, Input.ahead_advance, hahead, hafter, List.tail_cons, Lexeme.ungroup_group]

/-- Tokens of a source among which every bracket is closed, in the order that nests, and none is an
unfinished string or a spoiled address. -/
structure Token.Nested (tokens : List Token) : Prop where
  closed : tokens.foldlM (fun opened token => openAfter opened token.kind) [] = some []
  sound : ∀ t ∈ tokens, t.kind ≠ .badString ∧ t.kind ≠ .badUrl
  worded : ∀ t ∈ tokens, t.kind ≠ .eof ∧ t.text ≠ ""

namespace Token.Nested

/-- Trivia open and close no brackets. -/
theorem openAfter_of_insignificant {kind : Kind} (h : kind.isSignificant = false)
    (opened : List Kind) : openAfter opened kind = some opened := by
  cases kind <;> first | rfl | exact absurd h (by decide)

/-- Trivia in front leave the brackets open that were. -/
theorem foldlM_insignificant {tokens : List Token}
    (h : ∀ t ∈ tokens, t.kind.isSignificant = false) (opened : List Kind) (rest : List Token) :
    (tokens ++ rest).foldlM (fun opened token => openAfter opened token.kind) opened =
      rest.foldlM (fun opened token => openAfter opened token.kind) opened := by
  induction tokens with
  | nil => rfl
  | cons token tokens ih =>
    obtain ⟨htoken, hrest⟩ := List.forall_mem_cons.1 h
    rw [List.cons_append, List.foldlM_cons, openAfter_of_insignificant htoken]
    exact ih hrest

/-- The brackets that tokens leave open are those that their lexemes do. -/
theorem foldlM_ungroup (lexemes : List Lexeme) (opened : List Kind) (rest : List Token) :
    (Lexeme.ungroup lexemes ++ rest).foldlM
        (fun opened token => openAfter opened token.kind) opened =
      (openAfterAll opened lexemes).bind fun opened =>
        rest.foldlM (fun opened token => openAfter opened token.kind) opened := by
  induction lexemes generalizing opened with
  | nil => rfl
  | cons lexeme lexemes ih =>
    rw [Lexeme.ungroup, List.flatMap_cons, Lexeme.tokens, List.append_assoc, List.append_assoc,
      foldlM_insignificant lexeme.lead_insignificant, List.singleton_append, List.foldlM_cons,
      openAfterAll, List.foldlM_cons]
    rw [Lexeme.ungroup] at ih
    cases openAfter opened lexeme.token.kind with
    | none => rfl
    | some opened => exact ih opened

end Token.Nested

/-- The token of a lexeme is one of those it was cut from. -/
theorem Lexeme.token_mem {tokens : List Token} {lexeme : Lexeme}
    (h : lexeme ∈ (Lexeme.group tokens).1) : lexeme.token ∈ tokens := by
  rw [← Lexeme.ungroup_group tokens]
  exact List.mem_append_left _ (List.mem_flatMap.2 ⟨lexeme, h, by simp [Lexeme.tokens]⟩)

/-- The lexemes of tokens that nest are listed. -/
theorem Token.Nested.listed {tokens : List Token} (h : Token.Nested tokens) :
    Listed [] (Lexeme.group tokens).1 where
  closed := by
    have hclosed := h.closed
    rw [← Lexeme.ungroup_group tokens, Nested.foldlM_ungroup] at hclosed
    obtain ⟨opened, hopened, hrest⟩ := Option.bind_eq_some_iff.1 hclosed
    rw [← List.append_nil (Lexeme.group tokens).2,
      Nested.foldlM_insignificant (Lexeme.group_trailing tokens)] at hrest
    exact hopened.trans hrest
  sound _ hlexeme := h.sound _ (Lexeme.token_mem hlexeme)
  worded _ hlexeme := (h.worded _ (Lexeme.token_mem hlexeme)).2

namespace Grammar

variable {list after : List Token} {i j : Input} {ctx : Context} {set : BlockKind}

/-! ### What follows a list -/

/-- A list before a token, and by itself. -/
theorem Level.of_tokens {token : Token} (hlist : Nested list)
    (h : token.kind.isSignificant = true) (hi : i.tokens = list ++ token :: after)
    (hj : j.tokens = list) : Level (.behind list token h :: (Lexeme.group after).1) i j := by
  refine ⟨[], ⟨?_, ?_⟩, rfl⟩
  · rw [Input.CutAt, Input.ahead_eq hi, Input.ahead_eq hj, Lexeme.group_append_cons]
  · rw [Input.ahead_eq hj]
    exact hlist.listed

/-- What ends a declaration is significant. -/
theorem significant_of_ends {kind : Kind} (h : endsRule kind = true) :
    kind.isSignificant = true := by
  cases kind <;> first | rfl | exact absurd h (by decide)

/-- Before what ends a declaration a list is read as it is by itself, and then what follows. -/
theorem continues_tokens (ctx : Context) (set : BlockKind) {token : Token} (hlist : Nested list)
    (h : endsRule token.kind = true) (hi : i.tokens = list ++ token :: after) (hj : j.tokens = list)
    (hnodup : i.offsets.Nodup) :
    Continues ctx set (.behind list token (significant_of_ends h) :: (Lexeme.group after).1) i j :=
  accepted_continues (by rintro _ ⟨rfl⟩; exact h) (.of_tokens hlist _ hi hj) hnodup

/-- Before a closing brace a list is read as it is by itself, up to that brace. -/
theorem read_accepted_closed (ctx : Context) (set : BlockKind) {close : Token}
    (hlist : Nested list) (hclose : close.kind = .closeCurly)
    (hi : i.tokens = list ++ close :: after) (hj : j.tokens = list) (hnodup : i.offsets.Nodup) :
    ((accepted ctx set).read i).result = ((accepted ctx set).read j).result ∧
      ((accepted ctx set).read i).reports.map Diagnostic.cause =
        ((accepted ctx set).read j).reports.map Diagnostic.cause ∧
      ((accepted ctx set).read i).rest.view.token = close ∧
      ((accepted ctx set).read i).rest.advance.tokens = after := by
  have hends : endsRule close.kind = true := by rw [hclose]; rfl
  have hcontinues : Continues ctx set _ i j := continues_tokens ctx set hlist hends hi hj hnodup
  obtain ⟨-, own, k, hread, hresult, hcauses, hk, -, htrailing⟩ := hcontinues
  rw [pastSemicolon, if_neg (by simp [Lexeme.behind, hclose])] at hk
  obtain ⟨htoken, htokens⟩ := Input.tokens_behind (significant_of_ends hends) hk
    (by rw [htrailing (List.cons_ne_nil _ _), Input.trailing_eq hi])
  have hstop : (accepted ctx set).read k = ⟨[], k, []⟩ :=
    read_accepted_stop ctx set (.inl (by rw [View.kind, htoken, hclose]))
  rw [hread, hstop]
  refine ⟨(List.append_nil _).trans hresult, ?_, htoken, htokens⟩
  exact (congrArg _ (List.append_nil own.reports)).trans hcauses

/-- Before a semicolon a list is read as it is by itself, and then what follows as by itself. -/
theorem read_accepted_followed (ctx : Context) (set : BlockKind) {semicolon : Token} {k : Input}
    (hlist : Nested list) (hsemicolon : semicolon.kind = .semicolon)
    (hi : i.tokens = list ++ semicolon :: after) (hj : j.tokens = list) (hk : k.tokens = after)
    (heof : k.eof = i.eof) (hnodup : i.offsets.Nodup) : ∃ own : Outcome (List Property),
      (accepted ctx set).read i = own.andThen ((accepted ctx set).read k) ∧
        own.result = ((accepted ctx set).read j).result ∧
        own.reports.map Diagnostic.cause =
          ((accepted ctx set).read j).reports.map Diagnostic.cause := by
  have hends : endsRule semicolon.kind = true := by rw [hsemicolon]; rfl
  have hcontinues : Continues ctx set _ i j := continues_tokens ctx set hlist hends hi hj hnodup
  obtain ⟨-, own, k', hread, hresult, hcauses, hk', hreach, htrailing⟩ := hcontinues
  rw [pastSemicolon, if_pos (by simp [Lexeme.behind, hsemicolon])] at hk'
  have hsame : k' = k := by
    refine Input.eq_of (hk'.trans (Input.ahead_eq hk).symm) ?_ (hreach.eof_eq.trans heof.symm)
    rw [htrailing (List.cons_ne_nil _ _), Input.trailing_eq hi, Input.trailing_eq hk,
      Lexeme.group_append_cons list (significant_of_ends hends)]
  rw [hsame] at hread
  exact ⟨own, hread, hresult, hcauses⟩

/-! ### Lists by themselves -/

/-- Declarations that close their brackets are read to the end in one go. -/
theorem result_declarationList (hlist : Listed [] j.ahead) (hnodup : j.offsets.Nodup) :
    ((declarationList ctx).read j).result =
      ((accepted ctx .standard).read j).result.foldl Block.set .empty := by
  have hcontinues : Continues ctx .standard [] j j :=
    accepted_continues (by rintro _ ⟨⟩) ⟨[], ⟨(List.append_nil _).symm, hlist⟩, rfl⟩ hnodup
  have hends := hcontinues.ends
  have hdone (rounds : Nat) (block : Block) {rest : Input} (h : rest.ahead = []) :
      (declarationListFrom ctx rounds block).read rest = ⟨block, rest, []⟩ := by
    have hatEnd : rest.view.atEnd = true := beq_iff_eq.2 (rest.kind_view_eq_eof_iff.2 h)
    cases rounds with
    | zero => rfl
    | succ rounds => simp [declarationListFrom, read_bind, hatEnd]
  have hstart : (declarationList ctx).read j =
      (declarationListFrom ctx j.size .empty).read j := rfl
  rw [hstart]
  cases hsize : j.size with
  | zero =>
    have hj := j.size_eq_zero_iff.1 hsize
    rw [hdone 0 _ hj, read_accepted_stop ctx _ (.inr (j.kind_view_eq_eof_iff.2 hj))]
    rfl
  | succ rounds =>
    have hj : j.view.atEnd = false := by
      refine beq_false_of_ne fun hk => ?_
      rw [j.size_eq_zero_iff.2 (j.kind_view_eq_eof_iff.1 hk)] at hsize
      cases hsize
    have hkind : ¬((accepted ctx .standard).read j).rest.view.kind = .closeCurly := by
      rw [Input.kind_view_eq_eof_iff _ |>.2 hends]
      decide
    rw [declarationListFrom]
    simp [read_bind, hj, declarations_eq, hkind, hdone rounds _ hends]

/-! ### Blocks of style rules -/

/-- A selector list ends where a tail starts that ends it. -/
theorem endsSelectors_of_head {tail : List Lexeme}
    (htail : ∀ lexeme ∈ tail.head?, endsSelectors lexeme.token.kind = true)
    (hi : i.ahead = tail) : endsSelectors i.view.kind = true := by
  rw [View.kind, Input.view, Input.current, hi]
  rcases tail with _ | ⟨lexeme, rest⟩
  · rw [i.eof_kind]
    rfl
  · exact htail lexeme rfl

/-- At its end, a selector list is read as it is by itself. -/
theorem read_selectorsFrom_at_cut {tail : List Lexeme} (rounds rounds' : Nat)
    (htail : ∀ lexeme ∈ tail.head?, endsSelectors lexeme.token.kind = true)
    (h : i.CutAt tail j) (hend : j.ahead = []) (builder : SelectorList.Builder) :
    ((selectorsFrom rounds builder).read i).result =
        ((selectorsFrom rounds' builder).read j).result ∧
      ((selectorsFrom rounds builder).read i).rest.ahead = tail := by
  have hahead : i.ahead = tail := by
    rw [show i.ahead = j.ahead ++ tail from h, hend, List.nil_append]
  have hshort : endsSelectors j.view.kind = true := endsSelectors_of_head (by rintro _ ⟨⟩) hend
  rw [read_selectorsFrom_stops _ (endsSelectors_of_head htail hahead),
    read_selectorsFrom_stops _ hshort]
  exact ⟨rfl, hahead⟩

/-- A selector list before a brace is read as it is by itself, up to that brace. -/
theorem read_selectorsFrom_cut {tail : List Lexeme} {rounds rounds' : Nat}
    (htail : ∀ lexeme ∈ tail.head?, endsSelectors lexeme.token.kind = true)
    (h : i.CutAt tail j) (hnone : ∀ lexeme ∈ j.ahead, endsSelectors lexeme.token.kind = false)
    (hi : j.size ≤ rounds) (hj : j.size ≤ rounds') (builder : SelectorList.Builder) :
    ((selectorsFrom rounds builder).read i).result =
        ((selectorsFrom rounds' builder).read j).result ∧
      ((selectorsFrom rounds builder).read i).rest.ahead = tail := by
  induction rounds generalizing rounds' i j builder with
  | zero => exact read_selectorsFrom_at_cut _ _ htail h (j.size_eq_zero_iff.1 (by omega)) builder
  | succ rounds ih =>
    by_cases hend : j.ahead = []
    · exact read_selectorsFrom_at_cut _ _ htail h hend builder
    obtain ⟨lexeme, rest, hahead, hk, -, hrest⟩ := exists_ahead_eq hend
    have hsize : j.size = rest.length + 1 := by rw [j.size_eq, hahead, List.length_cons]
    have hadvance : j.advance.size = rest.length := by rw [j.advance.size_eq, hrest]
    obtain ⟨rounds', rfl⟩ : ∃ n, rounds' = n + 1 := ⟨rounds' - 1, by omega⟩
    rw [hahead, List.forall_mem_cons] at hnone
    have hgoes : endsSelectors j.view.kind = false := hk ▸ hnone.1
    have hsame : j.view.token = i.view.token ∧ j.view.spacing = i.view.spacing := by
      rw [h.view_eq hend]
      exact ⟨rfl, rfl⟩
    rw [read_selectorsFrom_token rounds (h.kind_eq hend ▸ hgoes),
      read_selectorsFrom_token rounds' hgoes, hsame.1, hsame.2]
    exact ih (h.advance hend) (hrest ▸ hnone.2) (by omega) (by omega) _

/-- A selector list before a brace, and by itself. -/
theorem read_selectorList_before {selector : List Token} {brace : Token}
    (hbrace : brace.kind = .openCurly) (hselector : ∀ t ∈ selector, endsSelectors t.kind = false)
    (hi : i.tokens = selector ++ brace :: after) :
    (selectorList.read i).result = (selectorList.read (.ofTokens selector)).result ∧
      (selectorList.read i).rest.view.token = brace ∧
      (selectorList.read i).rest.advance.tokens = after := by
  have hsignificant : brace.kind.isSignificant = true := by rw [hbrace]; rfl
  have hj : (Input.ofTokens selector).tokens = selector :=
    Input.tokens_ofTokens_eq fun t ht hk => by simpa [hk, endsSelectors] using hselector t ht
  have hcut : i.CutAt (.behind selector brace hsignificant :: (Lexeme.group after).1)
      (.ofTokens selector) := by
    rw [Input.CutAt, Input.ahead_eq hi, Input.ahead_eq hj, Lexeme.group_append_cons]
  have hread (input : Input) : selectorList.read input =
      ⟨⟨((selectorsFrom input.size .empty).read input).result.list,
        ((selectorsFrom input.size .empty).read input).result.isValid⟩,
        ((selectorsFrom input.size .empty).read input).rest,
        ((selectorsFrom input.size .empty).read input).reports ++ []⟩ := by
    rw [selectorList, read_enclosed, read_bind, read_view, read_bind, read_pure]
    rfl
  have hsize : (Input.ofTokens selector).size ≤ i.size := by
    have hlength := hcut.size_eq
    omega
  obtain ⟨hresult, hrest⟩ := read_selectorsFrom_cut
    (by rintro _ ⟨rfl⟩; simp [Lexeme.behind, hbrace, endsSelectors]) hcut
    (fun lexeme hlexeme =>
      hselector _ (Lexeme.token_mem (by rwa [Input.ahead_eq hj] at hlexeme)))
    hsize (Nat.le_refl _) .empty
  rw [hread i, hread, hresult]
  refine ⟨rfl, Input.tokens_behind hsignificant hrest ?_⟩
  rw [← Input.trailing_eq hi]
  exact (read_reaches _ i).trailing_eq (hrest ▸ List.cons_ne_nil _ _)

/-- A block whose declarations close their brackets holds what they give by themselves. -/
theorem read_declarationBlock_of_list (config : Config) {close : Token} (hlist : Nested list)
    (hbrace : i.view.kind = .openCurly) (hclose : close.kind = .closeCurly)
    (hi : i.advance.tokens = list ++ close :: after) (hnodup : i.offsets.Nodup) :
    ((declarationBlock (.ofConfig config) .standard).read i).result =
        some (Block.parse list config).1 ∧
      ((declarationBlock (.ofConfig config) .standard).read i).rest.tokens = after := by
  have hj : (Input.ofTokens list).tokens = list :=
    Input.tokens_ofTokens_eq fun t ht => (hlist.worded t ht).1
  have hnodup' := (Input.Reaches.advance i).nodup_offsets hnodup
  have hlevel := Level.of_tokens hlist (by rw [hclose]; rfl) hi hj
  obtain ⟨hresult, -, htoken, htokens⟩ :=
    read_accepted_closed (.ofConfig config) .standard hlist hclose hi hj hnodup'
  have hblock : (Block.parse list config).1 =
      ((accepted (.ofConfig config) .standard).read i.advance).result.foldl Block.set .empty := by
    rw [hresult, ← result_declarationList (Input.ahead_eq hj ▸ hlist.listed)
      (hlevel.nodup hnodup')]
    exact run_result _ _
  have hkind : ((accepted (.ofConfig config) .standard).read i.advance).rest.view.kind =
      .closeCurly := by
    rw [View.kind, htoken, hclose]
  rw [hblock]
  simp [declarationBlock, blockOpening, blockClosing, read_bind, hbrace, declarations_eq,
    read_skipIf, hkind, htokens]

end Grammar

/-! ### Runs -/

/-- What reading declarations into a block comes to: which properties are put there, in order, what
is reported, and where it stops. -/
structure Parser.Fills (ctx : Context) (set : BlockKind) (s : Parser) (properties : List Property)
    (reports : List Diagnostic) (rest : Input) : Prop where
  accepted : ((accepted ctx set).run s).1 = properties
  block : ∀ block, ((declarations ctx set block).run s).1 = properties.foldl Block.set block
  rest : ∀ block, ((declarations ctx set block).run s).2.input = rest
  reports : ∀ block, ((declarations ctx set block).run s).2.diagnostics.toList =
    s.diagnostics.toList ++ reports

/-- Declarations are put into a block as they were accepted. -/
theorem Parser.fills (ctx : Context) (set : BlockKind) (s : Parser) :
    s.Fills ctx set ((Grammar.accepted ctx set).read s.input).result
      ((Grammar.accepted ctx set).read s.input).reports
      ((Grammar.accepted ctx set).read s.input).rest where
  accepted := run_result _ s
  block block := by rw [run_result, declarations_eq, read_map]
  rest block := by rw [run_rest, declarations_eq, read_map]
  reports block := by
    rw [((declarations ctx set block).run_eq_read s).2.2, declarations_eq, read_map]

/-- The selector list of some tokens is what is read of them, if it is valid. -/
theorem SelectorList.parse_result (tokens : List Token) (config : Config) :
    (SelectorList.parse tokens config).1 =
      if (selectorList.read (.ofTokens tokens)).result.valid then
        some (selectorList.read (.ofTokens tokens)).result.list else none := by
  change (if (selectorList.run (.ofTokens tokens config)).1.valid then
    some (selectorList.run (.ofTokens tokens config)).1.list else none) = _
  rw [run_result]
  rfl

open Grammar in
/-- A list of declarations that closes its brackets is read the same whatever follows it. Whether it
ends there, a closing brace follows or a semicolon and more does, it gives the same properties in
the same order, and the same is reported. Then the parser stands at the end, on that brace, or reads
on as it reads what comes after the semicolon by itself. So the block of a style rule holds what its
declarations give by themselves, and nothing else. -/
theorem declarations_stand_alone {list : List Token} (hlist : Token.Nested list) :
    (∀ (ctx : Context) (set : BlockKind) (close semicolon : Token) (after more : List Token)
      (alone enclosed followed next : Parser),
      close.kind = .closeCurly → semicolon.kind = .semicolon →
      alone.input.tokens = list → enclosed.input.tokens = list ++ close :: after →
      followed.input.tokens = list ++ semicolon :: more → next.input.tokens = more →
      next.input.eof = followed.input.eof →
      enclosed.input.offsets.Nodup → followed.input.offsets.Nodup →
      ∃ properties causes,
        (∃ reports rest, alone.Fills ctx set properties reports rest ∧
          reports.map Diagnostic.cause = causes ∧ rest.hasTokens = false) ∧
        (∃ reports rest, enclosed.Fills ctx set properties reports rest ∧
          reports.map Diagnostic.cause = causes ∧
          rest.view.token = close ∧ rest.advance.tokens = after) ∧
        ∃ reports moreProperties moreReports rest,
          followed.Fills ctx set (properties ++ moreProperties) (reports ++ moreReports) rest ∧
          reports.map Diagnostic.cause = causes ∧
          next.Fills ctx set moreProperties moreReports rest) ∧
    ∀ (config : Config) (selector : List Token) (brace close : Token) (after : List Token)
      (s : Parser), brace.kind = .openCurly → close.kind = .closeCurly →
      (∀ t ∈ selector, endsSelectors t.kind = false) → startsStyle s.view.kind = true →
      s.input.tokens = selector ++ brace :: (list ++ close :: after) → s.input.offsets.Nodup →
      ((rule (.ofConfig config)).run s).1 = (SelectorList.parse selector config).1.map
          (.style · (Block.parse list config).1) ∧
        ((rule (.ofConfig config)).run s).2.input.tokens = after := by
  refine ⟨?_, ?_⟩
  · intro ctx set close semicolon after more alone enclosed followed next hclose hsemicolon halone
      henclosed hfollowed hnext heof hnodup hnodup'
    obtain ⟨hresult, hcauses, htoken, hafter⟩ :=
      read_accepted_closed ctx set hlist hclose henclosed halone hnodup
    obtain ⟨own, hread, hown, hreports⟩ :=
      read_accepted_followed ctx set hlist hsemicolon hfollowed halone hnext heof hnodup'
    have hends := (continues_tokens ctx set hlist (by rw [hclose]; rfl) henclosed halone
      hnodup).ends
    have hfollows : followed.Fills ctx set _ _ _ := followed.fills ctx set
    rw [hread] at hfollows
    refine ⟨own.result, own.reports.map Diagnostic.cause, ⟨_, _, hown ▸ alone.fills ctx set,
      hreports.symm, ?_⟩, ⟨_, _, ?_, hcauses.trans hreports.symm, htoken, hafter⟩,
      own.reports, _, _, _, hfollows, rfl, next.fills ctx set⟩
    · rw [Input.hasTokens, hends]
      rfl
    · exact hown ▸ hresult ▸ enclosed.fills ctx set
  · intro config selector brace close after s hbrace hclose hselector hstarts hs hnodup
    obtain ⟨hselectors, hopens, hinside⟩ := read_selectorList_before hbrace hselector hs
    have hreach := read_reaches selectorList s.input
    obtain ⟨hblock, hrest⟩ := read_declarationBlock_of_list config hlist
      (by rw [View.kind, hopens, hbrace]) hclose hinside (hreach.nodup_offsets hnodup)
    have hread : (rule (.ofConfig config)).read s.input =
        (styleRule (.ofConfig config)).read s.input :=
      (read_rule _ _).trans (congrArg (·.read s.input) (ruleStarting_style hstarts _))
    rw [run_result, run_rest, hread]
    refine ⟨?_, ?_⟩
    · rw [result_styleRule, hblock, hselectors, SelectorList.parse_result, Option.bind_some]
      split <;> rfl
    · rw [rest_styleRule, hrest]

/-- A declaration without a colon, with a semicolon between braces, and a good one after it; before
a brace, before a word that is no declaration, and in a style rule. -/
theorem declarations_stand_alone_after_a_block :
    let token (kind : Token.Kind) (text : String) (start : UInt32) : Token :=
      ⟨kind, text, ⟨⟨start, ""⟩, ⟨start + 1, ""⟩⟩⟩
    let list := [token .ident "b" 2, token .openCurly "\x7b" 3, token .semicolon ";" 4,
      token .closeCurly "\x7d" 5, token .semicolon ";" 6, token .ident "width" 7,
      token .colon ":" 8, token .number "1" 9]
    let close := token .closeCurly "\x7d" 10
    let word := token .ident "c" 11
    let parser (tokens : List Token) := Parser.ofTokens tokens .strict
    let ctx := Context.ofConfig .strict
    let s := parser (token .ident "a" 0 :: token .openCurly "\x7b" 1 :: (list ++ [close]))
    (∃ properties causes,
      (∃ reports rest, (parser list).Fills ctx .standard properties reports rest ∧
        reports.map Diagnostic.cause = causes ∧ rest.hasTokens = false) ∧
      (∃ reports rest, (parser (list ++ [close])).Fills ctx .standard properties reports rest ∧
        reports.map Diagnostic.cause = causes ∧
        rest.view.token = close ∧ rest.advance.tokens = []) ∧
      ∃ reports moreProperties moreReports rest,
        (parser (list ++ [token .semicolon ";" 10, word])).Fills ctx .standard
          (properties ++ moreProperties) (reports ++ moreReports) rest ∧
        reports.map Diagnostic.cause = causes ∧
        (parser [word]).Fills ctx .standard moreProperties moreReports rest) ∧
    ((Grammar.rule ctx).run s).1 = some (.style ⟨["a"]⟩ (Block.parse list .strict).1) := by
  intro token list close word parser ctx s
  have hlist : Token.Nested list := ⟨by decide, by decide, by decide⟩
  obtain ⟨hfollows, hrule⟩ := declarations_stand_alone hlist
  refine ⟨hfollows ctx .standard close (token .semicolon ";" 10) [] [word] (parser list)
    (parser (list ++ [close])) (parser (list ++ [token .semicolon ";" 10, word])) (parser [word])
    rfl rfl (by decide) (by decide) (by decide) (by decide) (by decide) (by decide) (by decide), ?_⟩
  exact (hrule .strict [token .ident "a" 0] (token .openCurly "\x7b" 1) close [] s rfl rfl
    (by decide) (by decide) (by decide) (by decide)).1

end Cssom
