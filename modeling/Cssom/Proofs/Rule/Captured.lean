import Cssom.Proofs.Printing.KeptTokens

/-!
# What is kept of a rule of an unknown name

A rule of an unknown name is kept token by token: those up to a semicolon or an opening brace, and
those through the brace that closes it (`UnknownRule.KeptOf`). Which brace that is shows in how many
there are before it (`closes_iff`): in the block no brace is closed that was not opened in it, until
the last token closes the block.
-/

namespace Cssom

open Token Production Grammar

/-! ### Counting braces -/

namespace Grammar

variable {depth : Nat} {ks : List Kind} {k : Kind}

/-- Wherever one stops in some tokens, or behind them, one of the braces is open that were opened in
them or before them, of which there are so many. -/
def StaysOpen (depth : Nat) (ks : List Kind) : Prop :=
  ∀ n < ks.length + 1, (ks.take n).count .closeCurly < (ks.take n).count .openCurly + depth

/-- In an open block an opening brace is open behind a token, and a closing one is closed. -/
theorem count_bracesAfter (hdepth : depth ≠ 0) (k : Kind) :
    bracesAfter depth k + [k].count .closeCurly = depth + [k].count .openCurly := by
  cases k <;> simp [bracesAfter]
  omega

/-- As many braces stay open behind a token and others as stay open behind the others, if they are
counted from the token on. -/
theorem count_cons_lt (hdepth : depth ≠ 0) (k : Kind) (ks : List Kind) :
    (k :: ks).count .closeCurly < (k :: ks).count .openCurly + depth ↔
      ks.count .closeCurly < ks.count .openCurly + bracesAfter depth k := by
  have hstep := count_bracesAfter hdepth k
  rw [← List.singleton_append, List.count_append, List.count_append]
  omega

/-- A block closes as many braces as are opened in it and before it, counted from behind any
token. -/
theorem count_cons_eq (hdepth : depth ≠ 0) (k : Kind) (ks : List Kind) :
    (k :: ks).count .closeCurly = (k :: ks).count .openCurly + depth ↔
      ks.count .closeCurly = ks.count .openCurly + bracesAfter depth k := by
  have hstep := count_bracesAfter hdepth k
  rw [← List.singleton_append, List.count_append, List.count_append]
  omega

/-- Wherever one stops in a block, it has closed fewer braces than are opened in it and before it,
counted from behind any token. -/
theorem forall_take_cons_lt (hdepth : depth ≠ 0) (m : Nat) :
    (∀ n < m + 1, ((k :: ks).take n).count .closeCurly <
      ((k :: ks).take n).count .openCurly + depth) ↔
    ∀ n < m,
      (ks.take n).count .closeCurly < (ks.take n).count .openCurly + bracesAfter depth k := by
  constructor
  · intro h n hn
    rw [← count_cons_lt hdepth, ← List.take_succ_cons]
    exact h (n + 1) (Nat.succ_lt_succ hn)
  · rintro h (_ | n) hn
    · simp only [List.take_zero, List.count_nil]
      omega
    · rw [List.take_succ_cons, count_cons_lt hdepth]
      exact h n (Nat.lt_of_succ_lt_succ hn)

/-- Where braces are open they are without any token. -/
theorem staysOpen_nil (hdepth : depth ≠ 0) : StaysOpen depth [] := by
  intro n _
  simp only [List.take_nil, List.count_nil]
  omega

/-- Where braces stay open some are. -/
theorem StaysOpen.ne_zero (h : StaysOpen depth ks) : depth ≠ 0 := by
  have hnone := h 0 (Nat.succ_pos _)
  simp only [List.take_zero, List.count_nil] at hnone
  omega

/-- Braces stay open just if they do behind the first token. -/
theorem staysOpen_cons (hdepth : depth ≠ 0) :
    StaysOpen depth (k :: ks) ↔ StaysOpen (bracesAfter depth k) ks :=
  forall_take_cons_lt hdepth (ks.length + 1)

/-- Where braces stay open some are behind all tokens. -/
theorem StaysOpen.foldl_ne_zero (h : StaysOpen depth ks) : ks.foldl bracesAfter depth ≠ 0 := by
  induction ks generalizing depth with
  | nil => exact h.ne_zero
  | cons k ks ih => exact ih ((staysOpen_cons h.ne_zero).1 h)

/-- The last of some tokens closes the last brace that is open if it does by the number of braces,
and none of the tokens before it does. -/
theorem closes_iff (hdepth : depth ≠ 0) : Closes depth ks ↔
    ks.count .closeCurly = ks.count .openCurly + depth ∧
      ∀ n < ks.length, (ks.take n).count .closeCurly < (ks.take n).count .openCurly + depth := by
  induction ks generalizing depth with
  | nil =>
    simp only [Closes, List.count_nil, false_iff, not_and]
    omega
  | cons k ks ih =>
    rw [count_cons_eq hdepth, List.length_cons, forall_take_cons_lt hdepth, Closes]
    split
    · next hzero =>
      -- no brace is open behind the token, so no further token can stay above that
      rw [hzero]
      refine ⟨by rintro rfl; exact ⟨rfl, by simp⟩, fun h => ?_⟩
      by_contra hne
      have hfirst := h.2 0 (List.length_pos_iff.2 hne)
      simp at hfirst
    · next hpos => exact ih hpos

end Grammar

/-! ### Keeping lexemes -/

namespace Lexeme

/-- What is kept of a lexeme: its token, after a single space if trivia stand before it and it is
not the first that is kept. -/
def kept (fresh : Bool) (lexeme : Lexeme) : List Token :=
  (if fresh || lexeme.lead.isEmpty then [] else [⟨.whitespace, " ", lexeme.token.span⟩]) ++
    [lexeme.token]

/-- What is kept of lexemes. -/
def keptAll : Bool → List Lexeme → List Token
  | _, [] => []
  | fresh, lexeme :: more => lexeme.kept fresh ++ keptAll false more

/-- The kind of the token of a lexeme. -/
def kind (lexeme : Lexeme) : Kind :=
  lexeme.token.kind

/-- The spacing before a lexeme is open just if trivia stand before it. -/
theorem isOpen_spacing (lexeme : Lexeme) : lexeme.spacing.isOpen = !lexeme.lead.isEmpty := by
  rw [spacing, ← Input.spacingOf_map, Input.isOpen_spacingOf, List.isEmpty_map]

/-- No lexeme is for white space. -/
theorem kind_ne_whitespace (lexeme : Lexeme) : lexeme.kind ≠ .whitespace := by
  intro hkind
  have hsig := lexeme.significant
  rw [show lexeme.token.kind = .whitespace from hkind] at hsig
  exact absurd hsig (by decide)

/-- Apart from the spaces, the tokens of lexemes are kept, each once and in order. -/
theorem filter_keptAll (fresh : Bool) (lexemes : List Lexeme) :
    (keptAll fresh lexemes).filter (·.kind != .whitespace) = lexemes.map (·.token) := by
  induction lexemes generalizing fresh with
  | nil => rfl
  | cons lexeme more ih =>
    have hspace : (if fresh || lexeme.lead.isEmpty then []
        else [⟨.whitespace, " ", lexeme.token.span⟩] : List Token).filter
          (·.kind != .whitespace) = [] := by
      split <;> rfl
    have htoken : [lexeme.token].filter (·.kind != .whitespace) = [lexeme.token] := by
      rw [List.filter_cons_of_pos (by exact bne_iff_ne.2 lexeme.kind_ne_whitespace),
        List.filter_nil]
    rw [keptAll, List.filter_append, ih, kept, List.filter_append, hspace, htoken]
    rfl

variable {depth : Nat} {lexemes : List Lexeme}

/-- The kinds of what is kept of a lexeme are its own, perhaps behind that of a space. -/
theorem kinds_kept (fresh : Bool) (lexeme : Lexeme) :
    (lexeme.kept fresh).map Token.kind = [lexeme.kind] ∨
      (lexeme.kept fresh).map Token.kind = [.whitespace, lexeme.kind] := by
  rw [kept, List.map_append]
  split
  · exact Or.inl rfl
  · exact Or.inr rfl

/-- What closes a block closes it among the spaces too. -/
theorem closes_keptAll (fresh : Bool) (hdepth : depth ≠ 0) (h : Closes depth (lexemes.map kind)) :
    Closes depth ((keptAll fresh lexemes).map Token.kind) := by
  induction lexemes generalizing fresh depth with
  | nil => exact absurd h id
  | cons lexeme more ih =>
    have htoken : Closes depth (lexeme.kind :: (keptAll false more).map Token.kind) := by
      rw [List.map_cons, Closes] at h
      rw [Closes]
      split
      · next hzero =>
        rw [if_pos hzero, List.map_eq_nil_iff] at h
        rw [h]
        rfl
      · next hpos =>
        rw [if_neg hpos] at h
        exact ih false hpos h
    rw [keptAll, List.map_append]
    rcases lexeme.kinds_kept fresh with hkinds | hkinds
    · rw [hkinds]
      exact htoken
    · rw [hkinds]
      exact (if_neg hdepth).mpr htoken

/-- What leaves a block open leaves it open among the spaces too. -/
theorem staysOpen_keptAll (fresh : Bool) (hdepth : depth ≠ 0)
    (h : StaysOpen depth (lexemes.map kind)) :
    StaysOpen depth ((keptAll fresh lexemes).map Token.kind) := by
  induction lexemes generalizing fresh depth with
  | nil => exact h
  | cons lexeme more ih =>
    rw [List.map_cons, staysOpen_cons hdepth] at h
    have htoken : StaysOpen depth (lexeme.kind :: (keptAll false more).map Token.kind) :=
      (staysOpen_cons hdepth).2 (ih false h.ne_zero h)
    rw [keptAll, List.map_append]
    rcases lexeme.kinds_kept fresh with hkinds | hkinds
    · rw [hkinds]
      exact htoken
    · rw [hkinds]
      exact (staysOpen_cons hdepth).2 htoken

end Lexeme

/-! ### Lexemes as pieces -/

namespace Lexeme

/-- Lexemes without their places. -/
def pieces (lexemes : List Lexeme) : List Piece :=
  (ungroup lexemes).map Token.piece

variable {lexemes : List Lexeme} {after : List Piece}

/-- The pieces of lexemes are those of the first and then of the others. -/
theorem pieces_cons (lexeme : Lexeme) (more : List Lexeme) :
    pieces (lexeme :: more) =
      lexeme.lead.map Token.piece ++ lexeme.token.piece :: pieces more := by
  simp [pieces, ungroup, tokens]

/-- Lexemes put together have their pieces put together. -/
theorem pieces_append (some more : List Lexeme) :
    pieces (some ++ more) = pieces some ++ pieces more := by
  simp [pieces, ungroup]

/-- Lexemes around one of them. -/
theorem pieces_around (before : List Lexeme) (mark : Lexeme) (inside : List Lexeme)
    (after : List Piece) : pieces (before ++ mark :: inside) ++ after = pieces before ++
      (mark.lead.map Token.piece ++ mark.token.piece :: (pieces inside ++ after)) := by
  simp [pieces, ungroup, tokens]

/-- What stands before a lexeme is trivia. -/
theorem areTrivia_lead (lexeme : Lexeme) : AreTrivia (lexeme.lead.map Token.piece) := by
  intro p hp
  obtain ⟨t, ht, rfl⟩ := List.mem_map.1 hp
  exact lexeme.lead_insignificant t ht

/-- The kinds of the pieces of lexemes are those of the lexemes. -/
theorem kinds_pieces (lexemes : List Lexeme) : kinds (pieces lexemes) = lexemes.map kind := by
  induction lexemes with
  | nil => rfl
  | cons lexeme more ih =>
    rw [pieces_cons, kinds_token lexeme.areTrivia_lead lexeme.significant, ih]
    rfl

/-- What holds of the one holds of the other. -/
theorem forall_kinds_pieces {P : Kind → Prop} :
    (∀ k ∈ kinds (pieces lexemes), P k) ↔ ∀ lexeme ∈ lexemes, P lexeme.kind := by
  rw [kinds_pieces, List.forall_mem_map]

/-- What is kept of a lexeme is its token, behind what is kept of its trivia. -/
theorem pieces_kept (fresh : Bool) (lexeme : Lexeme) : (lexeme.kept fresh).map Token.piece =
    gapOf fresh (lexeme.lead.map Token.piece) ++ [lexeme.token.piece] := by
  rw [kept, List.map_append, gapOf, List.isEmpty_map]
  split <;> rfl

/-- What is kept of lexemes is their tokens with single blanks between them. -/
theorem singleSpaced_keptAll (fresh : Bool) (h : Lexes (pieces lexemes ++ after) []) :
    SingleSpaced fresh (pieces lexemes) ((keptAll fresh lexemes).map Token.piece) := by
  induction lexemes generalizing fresh with
  | nil => exact .nil
  | cons lexeme more ih =>
    rw [pieces_cons, List.append_assoc] at h
    have hbehind := (lexes_append.1 h).2
    rw [pieces_cons, keptAll, List.map_append, pieces_kept, List.append_assoc]
    exact .token lexeme.areTrivia_lead lexeme.significant (ne_nil_of_first hbehind.1)
      (ih false hbehind.2)

end Lexeme

namespace Input

/-- Lexemes that are ahead are the first pieces that are. -/
theorem exists_pieces_of_ahead {i : Input} {consumed rest : List Lexeme}
    (h : i.ahead = consumed ++ rest) : ∃ after, i.pieces = Lexeme.pieces consumed ++ after := by
  refine ⟨Lexeme.pieces rest ++ i.trailing.map Token.piece, ?_⟩
  rw [pieces, tokens, h, List.map_append, ← List.append_assoc, ← Lexeme.pieces_append]
  rfl

end Input

/-! ### Keeping a rule -/

/-- A rule of an unknown name is what is kept of the lexemes behind its at-keyword: up to a
semicolon, or up to a brace and through the one that closes it, if it ends; and all of them if
neither is there. -/
inductive UnknownRule.KeptOf : UnknownRule → List Lexeme → Bool → Prop where
  | statement {name : String} {before : List Lexeme} {mark : Lexeme}
      (hbefore : ∀ lexeme ∈ before, endsUnknownPreamble lexeme.kind = false)
      (hmark : mark.kind = .semicolon) :
      KeptOf ⟨name, Lexeme.keptAll true before, none⟩ (before ++ [mark]) true
  | block {name : String} {before inside : List Lexeme} {mark : Lexeme}
      (hbefore : ∀ lexeme ∈ before, endsUnknownPreamble lexeme.kind = false)
      (hmark : mark.kind = .openCurly) (hinside : Closes 1 (inside.map Lexeme.kind)) :
      KeptOf ⟨name, Lexeme.keptAll true before, some (Lexeme.keptAll false inside)⟩
        (before ++ mark :: inside) true
  | unclosed {name : String} {before inside : List Lexeme} {mark : Lexeme}
      (hbefore : ∀ lexeme ∈ before, endsUnknownPreamble lexeme.kind = false)
      (hmark : mark.kind = .openCurly) (hinside : StaysOpen 1 (inside.map Lexeme.kind)) :
      KeptOf ⟨name, Lexeme.keptAll true before, some (Lexeme.keptAll false inside)⟩
        (before ++ mark :: inside) false
  | unended {name : String} {before : List Lexeme}
      (hbefore : ∀ lexeme ∈ before, endsUnknownPreamble lexeme.kind = false) :
      KeptOf ⟨name, Lexeme.keptAll true before, none⟩ before false

namespace UnknownRule

/-- Whether a rule of an unknown name ends by itself, and not with its source: with the brace that
closes its block, or with a semicolon as the last of the lexemes that were read of it. -/
def endsIn (rule : UnknownRule) (lexemes : List Lexeme) : Bool :=
  match rule.block with
  | some block =>
    (block.map Token.kind).count .closeCurly == (block.map Token.kind).count .openCurly + 1
  | none => lexemes.getLast?.any (·.kind == .semicolon)

/-- What a rule of an unknown name keeps of the lexemes behind its at-keyword: of those before its
mark, an opening brace or a semicolon, and of those in its block. -/
structure Keeps (rule : UnknownRule) (before mark inside : List Lexeme) : Prop where
  preamble : rule.preamble = Lexeme.keptAll true before
  block : rule.block.getD [] = Lexeme.keptAll false inside
  /-- Apart from spaces, it keeps each token but the mark, in order. -/
  tokens : (rule.preamble ++ rule.block.getD []).filter (·.kind != .whitespace) =
    (before ++ inside).map (·.token)
  unmarked : ∀ lexeme ∈ before, lexeme.kind ≠ .openCurly ∧ lexeme.kind ≠ .semicolon
  marked : mark.map Lexeme.kind =
    if rule.block.isSome then [.openCurly]
    else if rule.endsIn (before ++ mark ++ inside) then [.semicolon] else []
  /-- No brace is closed in the block that was not opened in it, but by the last token. -/
  prefixes : ∀ n < (rule.block.getD []).length,
    (((rule.block.getD []).take n).map Token.kind).count .closeCurly ≤
      (((rule.block.getD []).take n).map Token.kind).count .openCurly
  /-- Nor is one closed by the last if the rule does not end by itself. -/
  unclosed : rule.endsIn (before ++ mark ++ inside) = false →
    ((rule.block.getD []).map Token.kind).count .closeCurly ≤
      ((rule.block.getD []).map Token.kind).count .openCurly

/-- What goes on before a block is neither a brace nor a semicolon. -/
theorem unmarked_of_goes {before : List Lexeme}
    (h : ∀ lexeme ∈ before, endsUnknownPreamble lexeme.kind = false) :
    ∀ lexeme ∈ before, lexeme.kind ≠ .openCurly ∧ lexeme.kind ≠ .semicolon := by
  intro lexeme hmem
  have hgoes := h lexeme hmem
  simp only [endsUnknownPreamble, Bool.or_eq_false_iff, beq_eq_false_iff_ne] at hgoes
  exact hgoes.1

/-- What is kept is, without the white space, the tokens of the lexemes. -/
theorem filter_kept (before inside : List Lexeme) :
    (Lexeme.keptAll true before ++ Lexeme.keptAll false inside).filter (·.kind != .whitespace) =
      (before ++ inside).map (·.token) := by
  rw [List.filter_append, Lexeme.filter_keptAll, Lexeme.filter_keptAll, List.map_append]

/-- Where a rule is kept of some lexemes, they are those before its mark, the mark and those in its
block; and it ends by itself just where it shows in its tokens. -/
theorem KeptOf.keeps {rule : UnknownRule} {consumed : List Lexeme} {ended : Bool}
    (h : rule.KeptOf consumed ended) : rule.endsIn consumed = ended ∧
      ∃ before mark inside, consumed = before ++ mark ++ inside ∧
        rule.Keeps before mark inside := by
  cases h with
  | @statement name before mark hbefore hmark =>
    have hends : endsIn ⟨name, Lexeme.keptAll true before, none⟩ (before ++ [mark] ++ []) =
        true := by
      rw [endsIn, List.append_nil, List.getLast?_concat]
      exact beq_iff_eq.2 hmark
    refine ⟨by rwa [List.append_nil] at hends, before, [mark], [], by rw [List.append_nil],
      rfl, rfl, filter_kept before [], unmarked_of_goes hbefore, ?_, by simp,
      fun _ => Nat.le_refl _⟩
    rw [hends]
    exact congrArg ([·]) hmark
  | @block name before inside mark hbefore hmark hinside =>
    have hcloses := Lexeme.closes_keptAll false Nat.one_ne_zero hinside
    rw [closes_iff Nat.one_ne_zero, List.length_map] at hcloses
    have hends : ∀ lexemes, endsIn ⟨name, Lexeme.keptAll true before,
        some (Lexeme.keptAll false inside)⟩ lexemes = true := fun _ => beq_iff_eq.2 hcloses.1
    refine ⟨hends _, before, [mark], inside, by simp, rfl, rfl, filter_kept before inside,
      unmarked_of_goes hbefore, congrArg ([·]) hmark, fun n hn => ?_, fun hopen => ?_⟩
    · rw [List.map_take]
      exact Nat.le_of_lt_succ (hcloses.2 n hn)
    · rw [hends] at hopen
      cases hopen
  | @unclosed name before inside mark hbefore hmark hinside =>
    have hopen := Lexeme.staysOpen_keptAll false Nat.one_ne_zero hinside
    have hall := hopen _ (Nat.lt_succ_self _)
    rw [List.take_length] at hall
    have hends : ∀ lexemes, endsIn ⟨name, Lexeme.keptAll true before,
        some (Lexeme.keptAll false inside)⟩ lexemes = false :=
      fun _ => beq_eq_false_iff_ne.2 (Nat.ne_of_lt hall)
    refine ⟨hends _, before, [mark], inside, by simp, rfl, rfl, filter_kept before inside,
      unmarked_of_goes hbefore, congrArg ([·]) hmark, fun n hn => ?_,
      fun _ => Nat.le_of_lt_succ hall⟩
    rw [List.map_take]
    exact Nat.le_of_lt_succ (hopen n (by rw [List.length_map]; exact Nat.lt_succ_of_lt hn))
  | @unended name before hbefore =>
    have hunmarked := unmarked_of_goes hbefore
    have hends : endsIn ⟨name, Lexeme.keptAll true consumed, none⟩ (consumed ++ [] ++ []) =
        false := by
      rw [endsIn, List.append_nil, List.append_nil, Option.any_eq_false]
      intro lexeme hlast
      rw [beq_eq_false_iff_ne]
      exact (hunmarked lexeme (List.mem_of_getLast? hlast)).2
    refine ⟨by simpa using hends, consumed, [], [], by simp, rfl, rfl, filter_kept consumed [],
      hunmarked, ?_, by simp, fun _ => Nat.le_refl _⟩
    rw [hends]
    rfl

end UnknownRule

namespace Grammar

variable {ctx : Context} {i : Input} {lexeme : Lexeme} {rest : List Lexeme}

/-- Of the token under the cursor is kept what is kept of its lexeme. -/
theorem tokensKept_eq (h : i.ahead = lexeme :: rest) (keepSpace : Bool) :
    tokensKept keepSpace i.view = lexeme.kept (!keepSpace) := by
  have hview : i.view.token = lexeme.token ∧ i.view.spacing = lexeme.spacing := by
    simp [Input.view, Input.current, Input.spacing, h]
  rw [tokensKept, Lexeme.kept, hview.1, hview.2, lexeme.isOpen_spacing]
  cases keepSpace <;> cases lexeme.lead.isEmpty <;> rfl

/-- The kind under the cursor is that of the first lexeme. -/
theorem kind_view_of_ahead (h : i.ahead = lexeme :: rest) : i.view.kind = lexeme.kind := by
  simp [Input.view, View.kind, Input.current, h, Lexeme.kind]

/-- What is kept before the block is kept of the lexemes up to the first that ends it. -/
theorem preamble_kept (rounds : Nat) (hsize : i.size ≤ rounds) (kept : List Token) :
    (unknownPreambleFrom rounds kept).Yields i fun result rest => ∃ before,
      result = kept ++ Lexeme.keptAll kept.isEmpty before ∧ i.ahead = before ++ rest.ahead ∧
        (∀ lexeme ∈ before, endsUnknownPreamble lexeme.kind = false) ∧
        endsUnknownPreamble rest.view.kind = true := by
  unfold Production.Yields
  rw [read_unknownPreambleFrom]
  induction rounds generalizing i kept with
  | zero =>
    have hnone : i.ahead = [] := i.size_eq_zero_iff.1 (Nat.le_zero.1 hsize)
    have hends : endsUnknownPreamble i.view.kind = true := by
      rw [i.kind_view_eq_eof_iff.2 hnone]
      rfl
    rw [read_tokensUntil_stops 0 kept hends]
    exact ⟨[], (List.append_nil _).symm, rfl, List.forall_mem_nil _, hends⟩
  | succ rounds ih =>
    rcases hends : endsUnknownPreamble i.view.kind
    · rcases hahead : i.ahead with _ | ⟨lexeme, rest⟩
      · rw [i.kind_view_eq_eof_iff.2 hahead] at hends
        exact absurd hends (by decide)
      rw [read_tokensUntil_token rounds kept hends]
      have hsize' : i.advance.size ≤ rounds := Nat.sub_le_of_le_add hsize
      obtain ⟨before, hresult, hrest, hbefore, hstops⟩ := ih hsize' (keptAfter kept i.view)
      have hkept : keptAfter kept i.view = kept ++ lexeme.kept kept.isEmpty := by
        rw [keptAfter, tokensKept_eq hahead, Bool.not_not]
      have hfresh : (keptAfter kept i.view).isEmpty = false := by
        simp [keptAfter, tokensKept]
      refine ⟨lexeme :: before, ?_, ?_, ?_, hstops⟩
      · rw [hresult, hfresh, hkept, Lexeme.keptAll, List.append_assoc]
      · rw [Input.ahead_advance, hahead, List.tail_cons] at hrest
        rw [List.cons_append, ← hrest]
      · rw [kind_view_of_ahead hahead] at hends
        exact List.forall_mem_cons.2 ⟨hends, hbefore⟩
    · rw [read_tokensUntil_stops _ kept hends]
      exact ⟨[], (List.append_nil _).symm, rfl, List.forall_mem_nil _, hends⟩

/-- What is kept in the block is kept of the lexemes through the one that closes the last brace that
is open, or of all that are left. -/
theorem block_kept (rounds : Nat) (hsize : i.size ≤ rounds) {depth : Nat} (hdepth : depth ≠ 0)
    (kept : List Token) :
    (unknownBlockFrom rounds depth kept).Yields i fun result rest => ∃ inside,
      result = kept ++ Lexeme.keptAll false inside ∧ i.ahead = inside ++ rest.ahead ∧
        (Closes depth (inside.map Lexeme.kind) ∨
          StaysOpen depth (inside.map Lexeme.kind) ∧ rest.ahead = []) := by
  unfold Production.Yields
  induction rounds generalizing i depth kept with
  | zero =>
    have hnone : i.ahead = [] := i.size_eq_zero_iff.1 (Nat.le_zero.1 hsize)
    exact ⟨[], (List.append_nil _).symm, rfl, Or.inr ⟨staysOpen_nil hdepth, hnone⟩⟩
  | succ rounds ih =>
    rcases hahead : i.ahead with _ | ⟨lexeme, rest⟩
    · rw [read_unknownBlockFrom_ends _ depth kept (i.kind_view_eq_eof_iff.2 hahead)]
      exact ⟨[], (List.append_nil _).symm, hahead.symm, Or.inr ⟨staysOpen_nil hdepth, hahead⟩⟩
    · have hkind := kind_view_of_ahead hahead
      have hread := read_unknownBlockFrom_token rounds depth kept (i := i) (by
        rw [Ne, i.kind_view_eq_eof_iff, hahead]
        exact List.cons_ne_nil _ _)
      rw [hkind, tokensKept_eq hahead, Bool.not_true] at hread
      have hadvance : i.advance.ahead = rest := by rw [Input.ahead_advance, hahead, List.tail_cons]
      rw [hread]
      split
      · next hzero =>
        refine ⟨[lexeme], by rw [Lexeme.keptAll, Lexeme.keptAll, List.append_nil], ?_, Or.inl ?_⟩
        · rw [hadvance]
          rfl
        · exact (if_pos hzero).mpr rfl
      · next hpos =>
        have hsize' : i.advance.size ≤ rounds := Nat.sub_le_of_le_add hsize
        obtain ⟨inside, hresult, hrest, hinside⟩ := ih hsize' hpos (kept ++ lexeme.kept false)
        rw [hadvance] at hrest
        refine ⟨lexeme :: inside, ?_, by rw [List.cons_append, ← hrest], ?_⟩
        · rw [hresult, Lexeme.keptAll, List.append_assoc]
        · refine hinside.imp (fun hcloses => ?_) (And.imp_left fun hopen => ?_)
          · exact (if_neg hpos).mpr hcloses
          · exact (staysOpen_cons hdepth).2 hopen

/-- What ends a rule of an unknown name ends the rule that was kept before it. -/
theorem unknownBlock_kept (hends : endsUnknownPreamble i.view.kind = true) :
    unknownBlock.Yields i fun block? rest => ∃ ended consumed,
      i.ahead = consumed ++ rest.ahead ∧ (ended = false → rest.ahead = []) ∧
        ∀ name before, (∀ lexeme ∈ before, endsUnknownPreamble lexeme.kind = false) →
          UnknownRule.KeptOf ⟨name, Lexeme.keptAll true before, block?⟩ (before ++ consumed)
            ended := by
  unfold unknownBlock
  apply Yields.view
  rcases hahead : i.ahead with _ | ⟨mark, rest⟩
  · rw [i.kind_view_eq_eof_iff.2 hahead]
    refine Yields.pure ⟨false, [], hahead.symm, fun _ => hahead, fun name before hbefore => ?_⟩
    rw [List.append_nil]
    exact .unended hbefore
  have hadvance : i.advance.ahead = rest := by rw [Input.ahead_advance, hahead, List.tail_cons]
  have hkind := kind_view_of_ahead hahead
  rw [hkind] at hends ⊢
  split
  · next hmark =>
    apply Yields.skip
    apply Yields.bind
      (block_kept i.view.size (Nat.sub_le i.size 1) Nat.one_ne_zero [])
    rintro final after _ ⟨inside, rfl, hinside, hcloses⟩
    rw [hadvance] at hinside
    rcases hcloses with hcloses | ⟨hopen, hnone⟩
    · refine Yields.pure ⟨true, mark :: inside, by rw [hinside]; rfl, by simp,
        fun _ _ hbefore => ?_⟩
      exact .block hbefore hmark hcloses
    · refine Yields.pure ⟨false, mark :: inside, by rw [hinside]; rfl, fun _ => hnone,
        fun _ _ hbefore => ?_⟩
      exact .unclosed hbefore hmark hopen
  · next hmark =>
    apply Yields.skip
    refine Yields.pure ⟨true, [mark], by rw [hadvance]; rfl, by simp, fun _ _ hbefore => ?_⟩
    exact .statement hbefore hmark
  · next hbrace hsemicolon =>
    have hkinds : (mark.kind = .openCurly ∨ mark.kind = .semicolon) ∨ mark.kind = .eof := by
      simpa [endsUnknownPreamble] using hends
    have hsig := mark.significant
    rw [show mark.token.kind = .eof from
      hkinds.resolve_left fun h => h.elim hbrace hsemicolon] at hsig
    exact absurd hsig (by decide)

/-- What is kept behind an at-keyword of an unknown name, and that nothing is left if the rule does
not end. -/
theorem unknownRule_kept (hkeep : ctx.config.keepUnknownRules = true) (name : String)
    (position : Position) : (unknownRule ctx name position).Yields i fun result rest =>
      ∃ rule consumed ended, result = some (.unknown rule) ∧ rule.name = name ∧
        i.ahead = consumed ++ rest.ahead ∧ rule.KeptOf consumed ended ∧
        (ended = false → rest.ahead = []) := by
  unfold unknownRule
  rw [if_pos hkeep]
  apply Yields.view
  apply Yields.bind (preamble_kept i.view.size (Nat.le_refl _) [])
  rintro preamble rest _ ⟨before, rfl, hahead, hbefore, hends⟩
  apply Yields.bind (unknownBlock_kept hends)
  rintro block? after _ ⟨ended, consumed, hrest, hleft, hkept⟩
  refine Yields.pure ⟨_, before ++ consumed, ended, rfl, rfl, ?_, hkept name before hbefore, hleft⟩
  rw [hahead, hrest, List.append_assoc]

end Grammar

end Cssom
