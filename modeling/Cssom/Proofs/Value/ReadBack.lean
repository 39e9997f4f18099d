import Cssom.Proofs.Printing.Sources
import Cssom.Proofs.Value.Acceptance

/-!
# Values keep their tokens

The text of a value is cut into the tokens that the value was read from, but for its mark, with a
single blank wherever trivia stood between two of them; and read again, it is the same value
(`values_keep_their_tokens`).
-/

namespace Cssom

open Production Token Grammar

/-- A token as it stands in a value, behind the first: a blank comes before it if trivia did. -/
def spacedPiece (seen : Seen) : List Piece :=
  (if seen.2.isOpen then [blank] else []) ++ [seen.1.piece]

/-- Tokens, with a single blank wherever trivia separates two of them. -/
def spacedPieces : List Seen → List Piece
  | [] => []
  | first :: more => first.1.piece :: more.flatMap spacedPiece

/-- The pieces of a token are spelt as it stands in a value. -/
theorem spell_spacedPiece (seen : Seen) : spell (spacedPiece seen) = (spacedWord seen).toList := by
  rw [spacedPiece, spacedWord, String.toList_append]
  cases seen.2.isOpen <;> simp [blank, Token.piece]

/-- The pieces of a value spell its text. -/
theorem spell_spacedPieces (v : List Seen) : spell (spacedPieces v) = (spacedText v).toList := by
  have hmore : ∀ more : List Seen,
      spell (more.flatMap spacedPiece) = (String.join (more.map spacedWord)).toList := by
    intro more
    induction more with
    | nil => rfl
    | cons seen more ih =>
      rw [List.flatMap_cons, spell_append, spell_spacedPiece, ih, List.map_cons, String.join_cons,
        String.toList_append]
  rcases v with _ | ⟨first, more⟩
  · rfl
  · rw [spacedPieces, spell_cons, hmore, spacedText, String.toList_append]
    rfl

namespace Grammar

variable {T opened : List Kind} {v w more : List Seen} {i j : Input} {t : Token} {s : Spacing}
  {ps : List Piece}

/-! ### How a value is printed -/

/-- Tokens that nest close what is open before them. -/
theorem exists_closing (hnests : NestsBefore T opened v) :
    ∀ k ∈ opened, ∃ seen ∈ v, seen.1.kind = k := by
  induction hnests with
  | done => exact List.forall_mem_nil _
  | @token opened opened' t s rest _ _ step _ ih =>
    intro k hk
    have hrest : k ∈ opened' → ∃ seen ∈ (t, s) :: rest, seen.1.kind = k := fun hmem =>
      let ⟨seen, hseen, hkind⟩ := ih k hmem
      ⟨seen, List.mem_cons_of_mem _ hseen, hkind⟩
    rcases openAfter_eq_some_iff.1 step with ⟨closer, _, rfl⟩ | ⟨_, rfl⟩ | ⟨_, _, rfl⟩
    · exact hrest (List.mem_cons_of_mem _ hk)
    · rcases List.mem_cons.1 hk with rfl | hk
      · exact ⟨(t, s), List.mem_cons_self, rfl⟩
      · exact hrest hk
    · exact hrest hk

/-- The next token of a value is printed, with a blank before it if trivia stood there, unless it is
the first. -/
theorem respaces_token (fresh : Bool) (hseen : i.seen = (t, s) :: more)
    (hfinished : t.kind ≠ .badString ∧ t.kind ≠ .badUrl)
    (hclose : t.kind = .function → ∃ text, (Kind.closeParen, text) ∈ ps)
    (hmore : Respaces false i.advance.pieces ps) : Respaces fresh i.pieces
      ((if !fresh && s.isOpen then [blank] else []) ++ t.piece :: ps) := by
  obtain ⟨htoken, hspacing, _⟩ := Input.view_of_seen hseen
  rcases i.faces_cases with ⟨_, hkind, _⟩ | ⟨lead, p, src, hpieces, hlead, hp, hfaces⟩
  · rw [Input.seen_eq_nil_iff.2 hkind] at hseen
    cases hseen
  obtain rfl : t.piece = p := by
    rw [← htoken]
    exact Prod.ext hfaces.kind hfaces.text
  have hblank : (if !fresh && s.isOpen then [blank] else []) = valueSeparator fresh lead := by
    rw [← hspacing, hfaces.spacing, Input.isOpen_spacingOf, valueSeparator]
    cases fresh <;> cases lead.isEmpty <;> rfl
  rw [hblank, hpieces]
  rw [hfaces.advance] at hmore
  exact .token hlead hp hfinished.1 hfinished.2 hclose hmore

/-- Behind a function that nests, a parenthesis that closes is printed. -/
theorem closing_of_function {rest : List Seen} {opened' : List Kind}
    (hfunction : t.kind = .function) (hstep : openAfter opened t.kind = some opened')
    (hrest : NestsBefore T opened' rest) :
    ∃ text, (Kind.closeParen, text) ∈ rest.flatMap spacedPiece := by
  rw [hfunction] at hstep
  obtain ⟨seen, hmem, hkind⟩ := exists_closing hrest .closeParen
    (Option.some.inj hstep ▸ List.mem_cons_self)
  refine ⟨seen.1.text, List.mem_flatMap.2 ⟨seen, hmem, ?_⟩⟩
  rw [← hkind, spacedPiece]
  exact List.mem_append_right _ List.mem_cons_self

/-- Tokens that nest are printed with single blanks. -/
theorem respaces_of_nests (hnests : NestsBefore T opened v) (hseen : i.seen = v ++ more) :
    Respaces false i.pieces (v.flatMap spacedPiece) := by
  induction hnests generalizing i with
  | done => exact .ends
  | @token opened opened' t s rest finished _ step more ih =>
    have hrest := ih (Input.view_of_seen hseen).2.2
    rw [List.flatMap_cons, spacedPiece, List.append_assoc]
    exact respaces_token false hseen finished
      (fun hfunction => closing_of_function hfunction step more) hrest

/-- A value is printed as its source with a blank wherever trivia stood. -/
theorem respaces_value (hnests : NestsBefore T opened v) (hseen : i.seen = v ++ more) :
    Respaces true i.pieces (spacedPieces v) := by
  cases hnests with
  | done => exact .ends
  | @token _ opened' t s rest finished _ step more =>
    exact respaces_token true hseen finished
      (fun hfunction => closing_of_function hfunction step more)
      (respaces_of_nests more (Input.view_of_seen hseen).2.2)

/-- The text of a value is cut into its tokens and the blanks between them. -/
theorem pieces_spacedText (hregular : Regular i.pieces) (hnests : NestsBefore T opened v)
    (hne : v ≠ []) (hseen : i.seen = v ++ more) :
    pieces (spacedText v).toList = spacedPieces v := by
  have hprinted : spacedPieces v ≠ [] := by
    rcases v with _ | ⟨first, more⟩
    · exact absurd rfl hne
    · exact List.cons_ne_nil _ _
  have hlegible := (respaces_value hnests hseen).legible hregular hprinted
  have hcut := pieces_of_lexes (hlegible.lexes [] (Or.inl rfl))
  rwa [List.append_nil, pieces_nil, List.append_nil, spell_spacedPieces] at hcut

/-! ### What the print is seen as -/

/-- The tokens that a reader sees are significant. -/
theorem significant_of_mem_seen {seen : Seen} (h : seen ∈ i.seen) :
    seen.1.kind.isSignificant = true := by
  obtain ⟨lexeme, _, rfl⟩ := List.mem_map.1 h
  exact lexeme.significant

/-- A token in a print is seen as it was printed. -/
theorem seen_of_pieces_cons (sep : List Piece) {p : Piece} (h : j.pieces = sep ++ p :: ps)
    (hsep : AreTrivia sep) (hp : p.1.isSignificant = true) :
    ∃ seen, j.seen = seen :: j.advance.seen ∧ seen.1.piece = p ∧
      seen.2.isOpen = !sep.isEmpty ∧ j.advance.pieces = ps := by
  have hfaces := Input.faces_of_pieces h hsep hp
  refine ⟨(j.view.token, j.view.spacing), Input.seen_eq_cons (hfaces.kind_ne_eof hp),
    Prod.ext hfaces.kind hfaces.text, ?_, hfaces.advance⟩
  rw [hfaces.spacing, Input.isOpen_spacingOf]

/-- Tokens printed behind others are seen with the spacing that they were printed with. -/
theorem seen_of_flatMap (h : j.pieces = v.flatMap spacedPiece)
    (hv : ∀ seen ∈ v, seen.1.kind.isSignificant = true) :
    j.seen.map (fun seen => (seen.1.piece, seen.2.isOpen)) =
      v.map fun seen => (seen.1.piece, seen.2.isOpen) := by
  induction v generalizing j with
  | nil =>
    have htrivia : AreTrivia j.pieces := h ▸ areTrivia_nil
    rw [Input.seen_eq_nil_iff.2 (by rw [Input.kind_view, headKind_eq_eof htrivia])]
  | cons seen v ih =>
    obtain ⟨hseen, hv⟩ := List.forall_mem_cons.1 hv
    rw [List.flatMap_cons, spacedPiece, List.append_assoc] at h
    have hsep : AreTrivia (if seen.2.isOpen then [blank] else []) := by
      cases seen.2.isOpen
      · exact areTrivia_nil
      · exact areTrivia_singleton rfl
    obtain ⟨seen', hcons, hpiece, hopen, hadvance⟩ := seen_of_pieces_cons _ h hsep hseen
    rw [hcons, List.map_cons, List.map_cons, ih hadvance hv, hpiece, hopen]
    cases seen.2.isOpen <;> rfl

/-- The print of tokens is seen as these tokens, and would be printed as they are. -/
theorem seen_of_spacedPieces (h : j.pieces = spacedPieces v)
    (hv : ∀ seen ∈ v, seen.1.kind.isSignificant = true) :
    spacedPieces j.seen = spacedPieces v ∧ j.seen.map (·.1.piece) = v.map (·.1.piece) := by
  rcases v with _ | ⟨first, more⟩
  · have hnone := seen_of_flatMap (v := []) h (List.forall_mem_nil _)
    rw [List.map_nil, List.map_eq_nil_iff] at hnone
    rw [hnone]
    exact ⟨rfl, rfl⟩
  obtain ⟨hfirst, hmore⟩ := List.forall_mem_cons.1 hv
  obtain ⟨seen, hcons, hpiece, _, hadvance⟩ :=
    seen_of_pieces_cons [] h areTrivia_nil hfirst
  have hlook := seen_of_flatMap hadvance hmore
  have hprint : j.advance.seen.map spacedPiece = more.map spacedPiece := by
    have hall := congrArg
      (List.map fun look : Piece × Bool => (if look.2 then [blank] else []) ++ [look.1]) hlook
    rwa [List.map_map, List.map_map] at hall
  have hpieces : j.advance.seen.map (·.1.piece) = more.map (·.1.piece) := by
    have hall := congrArg (List.map Prod.fst) hlook
    rwa [List.map_map, List.map_map] at hall
  rw [hcons, spacedPieces, spacedPieces, List.flatMap_def, List.flatMap_def, hprint, List.map_cons,
    List.map_cons, hpieces, hpiece]
  exact ⟨rfl, rfl⟩

/-- Whether tokens nest hangs on their kinds and texts. -/
theorem nests_of_pieces (hnests : NestsBefore T opened v)
    (h : w.map (·.1.piece) = v.map (·.1.piece)) : NestsBefore T opened w := by
  induction hnests generalizing w with
  | done =>
    rw [List.map_nil, List.map_eq_nil_iff] at h
    exact h ▸ .done
  | @token opened opened' t s rest finished outside step _ ih =>
    obtain ⟨⟨t', s'⟩, rest', rfl, hpiece, hrest⟩ := List.map_eq_cons_iff.1 h
    obtain ⟨hkind, htext⟩ := Prod.mk.inj hpiece
    have hmark : t'.isMark '!' = t.isMark '!' := by
      rw [isMark, isMark, hkind, htext]
    exact .token (hkind ▸ finished) (by rw [hkind, hmark]; exact outside)
      (by rw [hkind]; exact step) (ih hrest)

end Grammar

/-- What reading a value gives, where invalid values are not kept. -/
theorem accepted_of_parse {tokens : List Token} {v : Value} {important : Bool}
    (hparse : (Value.parse tokens .strict).1 = some (v, important)) :
    ((value []).run (.ofTokens tokens .strict)).1.valid = true ∧
      ((value []).run (.ofTokens tokens .strict)).1.important = important ∧
      ((value []).run (.ofTokens tokens .strict)).1.value = some v := by
  unfold Value.parse at hparse
  generalize (value []).run (.ofTokens tokens .strict) = outcome at hparse ⊢
  obtain ⟨parsed, after⟩ := outcome
  have hparsed : (if parsed.valid || Config.strict.keepInvalidValues then
      parsed.value.map (·, parsed.important) else none) = some (v, important) := hparse
  split at hparsed
  · next haccepted =>
    obtain ⟨value, hvalue, hpair⟩ := Option.map_eq_some_iff.1 hparsed
    obtain ⟨rfl, himportant⟩ := Prod.mk.inj hpair
    refine ⟨?_, himportant, hvalue⟩
    rwa [show Config.strict.keepInvalidValues = false from rfl, Bool.or_false] at haccepted
  · cases hparsed

/-- Tokens that nest are read as a value from their print, and nothing is left then. -/
theorem parse_of_pieces {tokens : List Token} {kept : List Seen} (hnests : NestsBefore [] [] kept)
    (hne : kept ≠ []) (hkept : ∀ seen ∈ kept, seen.1.kind.isSignificant = true)
    (hworded : (Input.ofTokens tokens).Worded)
    (hpieces : (Input.ofTokens tokens).pieces = spacedPieces kept) :
    (Value.parse tokens .strict).1 = some (⟨spacedText kept⟩, false) ∧
      (Value.parse tokens .strict).2.rest = [] := by
  let s : Parser := .ofTokens tokens .strict
  obtain ⟨hprint, hsame⟩ := seen_of_spacedPieces hpieces hkept
  have hne' : s.input.seen ≠ [] := by
    intro hnone
    rw [show (Input.ofTokens tokens).seen = [] from hnone, List.map_nil, eq_comm,
      List.map_eq_nil_iff] at hsame
    exact hne hsame
  have hwhole : s.input.seen = s.input.seen ++ ([] ++ []) := by
    rw [List.append_nil, List.append_nil]
  obtain ⟨hrest, hparsed⟩ := (value_complete (nests_of_pieces hnests hsame) hne' .absent
    (List.forall_mem_nil _) hworded hwhole
    fun rest hrest => Or.inl (Input.seen_eq_nil_iff.1 hrest)).run (s := s)
  have htext : textOf s.input.seen = spacedText kept := by
    have hwords : ∀ seen ∈ s.input.seen, seen.1.text ≠ "" := hworded.seen_ne
    rw [textOf_eq_spacedText hwords, ← String.toList_inj, ← spell_spacedPieces,
      ← spell_spacedPieces]
    exact congrArg spell hprint
  refine ⟨?_, hrest⟩
  show (if ((value []).run s).1.valid || Config.strict.keepInvalidValues then
    ((value []).run s).1.value.map (·, ((value []).run s).1.important) else none) = _
  rw [hparsed, ← htext]
  rfl

/-- What is accepted from a source as a value, with or without a mark of importance, where no
backslash is a token by itself: its text is cut into the tokens before the mark, a blank between two
of them just if trivia stood there, and read as the same value, without a mark. -/
theorem values_keep_their_tokens (source : String) (file file' : Option String)
    (tokens : List Token) (hscan : Token.scan source file = .ok tokens)
    (hslash : ∀ t ∈ tokens, t.kind = .delim → t.text ≠ "\\") (v : Value) (important : Bool)
    (hparse : (Value.parse tokens .strict).1 = some (v, important)) :
    ∃ kept marks again eof, (Parser.ofTokens tokens .strict).rest = kept ++ marks ∧
      IsMark important marks ∧ Token.scan v.text file' = .ok (again ++ [eof]) ∧ eof.kind = .eof ∧
      again.map Token.piece = spacedPieces kept ∧
      (Value.parse (again ++ [eof]) .strict).1 = some (v, false) ∧
      (Value.parse (again ++ [eof]) .strict).2.rest = [] := by
  rw [scan_eq_tokenize, Except.ok.injEq] at hscan
  subst hscan
  obtain ⟨hvalid, himportant, hvalue⟩ := accepted_of_parse hparse
  obtain ⟨kept, marks, hseen, hne, hnests, hmark, _, htext⟩ :=
    (value_sound (T := []) List.not_mem_nil).run hvalid
  have hend : ((value []).run (.ofTokens (tokenize source file) .strict)).2.input.seen = [] :=
    Input.seen_eq_nil_iff.2 ((value_ends (T := [])).run.resolve_right Bool.false_ne_true)
  rw [hend, List.append_nil] at hseen
  have hwords : ∀ seen ∈ kept, seen.1.text ≠ "" := fun seen hmem =>
    (worded_tokenize source file).seen_ne seen (hseen ▸ List.mem_append_left _ hmem)
  obtain rfl : v = ⟨spacedText kept⟩ := by
    rw [← textOf_eq_spacedText hwords]
    exact Option.some.inj (hvalue.symm.trans htext)
  have hcut := pieces_spacedText (regular_tokenize hslash) hnests hne hseen
  obtain ⟨again, eof, htokens, heof, hpieces, _⟩ := tokenize_eq (spacedText kept) file'
  have hagain := parse_of_pieces hnests hne (fun seen hmem => significant_of_mem_seen
    (hseen ▸ List.mem_append_left _ hmem)) (worded_tokenize (spacedText kept) file')
    ((pieces_tokenize _ _).trans hcut)
  rw [htokens] at hagain
  exact ⟨kept, marks, again, eof, hseen, himportant ▸ hmark, by rw [scan_eq_tokenize, htokens],
    heof, hpieces.trans hcut, hagain⟩

/-- Comments and marks of HTML between numbers, an address that is a function, a range of characters
and a mark of importance. -/
theorem values_keep_their_tokens_apart :
    let source := " 1/**/+2\n-->url('c')u+1-2 a <!-- b!important"
    let tokens := tokenize source none
    let v : Value := ⟨"1 +2 url('c')u+1-2 a b"⟩
    (Value.parse tokens .strict).1 = some (v, true) ∧
      ∃ kept marks again eof, (Parser.ofTokens tokens .strict).rest = kept ++ marks ∧
        IsMark true marks ∧ Token.scan v.text none = .ok (again ++ [eof]) ∧ eof.kind = .eof ∧
        again.map Token.piece = spacedPieces kept ∧
        (Value.parse (again ++ [eof]) .strict).1 = some (v, false) ∧
        (Value.parse (again ++ [eof]) .strict).2.rest = [] := by
  intro source tokens v
  have hparse : (Value.parse tokens .strict).1 = some (v, true) := by decide +kernel
  exact ⟨hparse, values_keep_their_tokens source none none tokens (scan_eq_tokenize _ none)
    (by decide +kernel) v true hparse⟩

end Cssom
