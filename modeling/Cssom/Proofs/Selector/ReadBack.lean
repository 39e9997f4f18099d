import Cssom.Proofs.Selector.Printed

/-!
# Which selector lists are read back

A selector list that is accepted up to the end of a source is printed as its tokens again, and read
again as the same list, just if it loses nothing on the way (`PrintsWhole`): no backslash that is a
token by itself stands before another token, where it would escape what is printed behind it, and no
blank that belongs to a token is trimmed before a combinator (`selectors_read_back_iff`).

That nothing else may be lost shows in a count. No print adds a blank other than the plain one
(`oddBlanks`). So if its tokens are those of the source, none was trimmed, and none stands between
them, as one would behind such a backslash.
-/

namespace Cssom

open Production Token Grammar

/-! ### What would be lost -/

/-- The tokens right before a combinator outside of brackets, where these are open before the first
token. -/
def beforeCombinators : List Kind → List Seen → List Seen
  | opened, seen :: next :: more =>
    let inner := (openAfter opened seen.1.kind).getD opened
    let rest := beforeCombinators inner (next :: more)
    if inner.isEmpty && isCombinator next.1 then seen :: rest else rest
  | _, _ => []

/-- Tokens of a selector list of which nothing is lost where it is printed: no backslash by itself
stands before the last one, and none before a combinator ends in a blank that is not a plain one. -/
structure PrintsWhole (v : List Seen) : Prop where
  slash : ∀ seen ∈ v.dropLast, seen.1.isMark '\\' = false
  blanks : ∀ seen ∈ beforeCombinators [] v, ∀ c ∈ seen.1.text.toList.getLast?,
    Text.isBlank c = true → c = ' '

/-- What nothing is lost of, as it is decided. -/
theorem printsWhole_iff {v : List Seen} : PrintsWhole v ↔
    ((v.dropLast.all fun seen => !seen.1.isMark '\\') &&
      (beforeCombinators [] v).all fun seen =>
        seen.1.text.toList.getLast?.all fun c => !Text.isBlank c || c == ' ') = true := by
  have hall : ∀ o : Option Char, (o.all fun c => !Text.isBlank c || c == ' ') = true ↔
      ∀ c ∈ o, Text.isBlank c = true → c = ' ' := by
    rintro (_ | c)
    · exact ⟨fun _ _ hc => absurd hc (by simp), fun _ => rfl⟩
    · rcases hblank : Text.isBlank c <;> simp [hblank]
  rw [Bool.and_eq_true, List.all_eq_true, List.all_eq_true]
  simp only [Bool.not_eq_true', hall]
  exact ⟨fun h => ⟨h.slash, h.blanks⟩, fun ⟨hslash, hblanks⟩ => ⟨hslash, hblanks⟩⟩

instance (v : List Seen) : Decidable (PrintsWhole v) :=
  decidable_of_iff _ printsWhole_iff.symm

end Cssom

namespace Cssom.SelectorList.Builder

open Token Grammar

variable {b : Builder} {t : Token} {s : Spacing} {v : List Seen} {opened : List Kind}

/-- The builder takes a token for a combinator just if it is one and no bracket is open. -/
theorem isSome_combines? (b : Builder) (t : Token) :
    (b.combines? t).isSome = (b.closers.isEmpty && isCombinator t) := by
  rw [combines?, ← isSome_combinator?]
  split
  · next h => rw [h, Bool.true_and]
  · next h => rw [Bool.eq_false_iff.2 h]; rfl

/-- Where the builder takes a combinator, its text ends as the token before the cursor does. -/
theorem trimsBlank_iff {before : Token} (hb : b.Behind (some before))
    (hcomb : (b.combines? t).isSome = true) (hvalid : (b.feed t s).1.valid = true) :
    b.TrimsBlank ↔ ∀ c ∈ before.text.toList.getLast?, Text.isBlank c = true → c = ' ' := by
  obtain ⟨c, hc⟩ := Option.isSome_iff_exists.1 hcomb
  obtain ⟨_, hcurrent, hafter⟩ := closed_of_combines hc hvalid
  obtain ⟨x, hx⟩ := hb.text before rfl (by rw [waits, hcurrent, hafter, Bool.or_false])
  rw [TrimsBlank, ← hx, List.getLast?_append_of_ne_nil _ (hb.cut before rfl).ne_nil]

/-- Behind a token, the blanks of a list are kept just if no token before a combinator ends in a
blank other than the plain one. -/
theorem spacesKept_iff {seen : Seen} (hcut : ∀ next ∈ v, next.1.IsCut)
    (hends : ∀ next ∈ v, endsSelectors next.1.kind = false)
    (hvalid : (b.feedAll v).valid = true) (hb : b.Behind (some seen.1))
    (hclosers : b.closers = (openAfter opened seen.1.kind).getD opened) :
    b.SpacesKept v ↔ ∀ before ∈ beforeCombinators opened (seen :: v),
      ∀ c ∈ before.1.text.toList.getLast?, Text.isBlank c = true → c = ' ' := by
  induction v generalizing b seen opened with
  | nil => exact iff_of_true trivial (List.forall_mem_nil _)
  | cons next v ih =>
    obtain ⟨hthis, hcut⟩ := List.forall_mem_cons.1 hcut
    obtain ⟨hend, hends⟩ := List.forall_mem_cons.1 hends
    have hnext : (b.feed next.1 next.2).1.valid = true := valid_of_feedAll (v := v) hvalid
    have hmore := ih hcut hends hvalid (behind_feed hthis) (closers_feed hend)
    rw [SpacesKept, hmore, beforeCombinators, ← hclosers, isSome_combines?]
    rcases hcomb : b.closers.isEmpty && isCombinator next.1
    · simp
    · rw [if_pos rfl, List.forall_mem_cons, ← trimsBlank_iff hb _ hnext]
      · simp
      · rw [isSome_combines?, hcomb]

/-- The blanks of a whole list are kept on the same condition. -/
theorem spacesKept_empty_iff (hcut : ∀ seen ∈ v, seen.1.IsCut)
    (hends : ∀ seen ∈ v, endsSelectors seen.1.kind = false)
    (hvalid : (Builder.empty.feedAll v).valid = true) :
    Builder.empty.SpacesKept v ↔ ∀ before ∈ beforeCombinators [] v,
      ∀ c ∈ before.1.text.toList.getLast?, Text.isBlank c = true → c = ' ' := by
  rcases v with _ | ⟨seen, v⟩
  · exact iff_of_true trivial (List.forall_mem_nil _)
  obtain ⟨hthis, hcut⟩ := List.forall_mem_cons.1 hcut
  obtain ⟨hend, hends⟩ := List.forall_mem_cons.1 hends
  have hmore := @spacesKept_iff (Builder.empty.feed seen.1 seen.2).1 v [] seen hcut hends hvalid
    (behind_feed hthis) (closers_feed hend)
  rw [← hmore]
  exact and_iff_right fun _ c hc => by cases hc

end Cssom.SelectorList.Builder

namespace Cssom

open Token

/-! ### Blanks that no print adds -/

/-- How many of the characters are blanks other than the plain one. -/
def oddBlanks (cs : List Char) : Nat :=
  cs.countP fun c => Text.isBlank c && c != ' '

/-- Odd blanks are counted character by character. -/
theorem oddBlanks_append (xs ys : List Char) : oddBlanks (xs ++ ys) = oddBlanks xs + oddBlanks ys :=
  List.countP_append

/-- A trimmed text ends in no blank. -/
theorem last_trimEnd {cs : List Char} {c : Char} (h : (Text.trimEnd cs).getLast? = some c) :
    Text.isBlank c = false := by
  rw [Text.trimEnd, List.getLast?_reverse] at h
  have hhead := List.head?_dropWhile_not Text.isBlank cs.reverse
  rwa [h] at hhead

/-- Trimming takes no odd blank only if the text ends in none. -/
theorem oddBlanks_trimEnd (cs : List Char) : oddBlanks (Text.trimEnd cs) ≤ oddBlanks cs ∧
    (oddBlanks cs ≤ oddBlanks (Text.trimEnd cs) →
      ∀ c ∈ cs.getLast?, Text.isBlank c = true → c = ' ') := by
  obtain ⟨blanks, _, hsplit⟩ := Text.trimEnd_append_trimmed cs
  have hsum := oddBlanks_append (Text.trimEnd cs) blanks
  rw [hsplit] at hsum
  refine ⟨by omega, fun hnone c hc hblank => ?_⟩
  by_contra hodd
  rcases blanks.eq_nil_or_concat with rfl | ⟨before, d, rfl⟩
  · rw [List.append_nil] at hsplit
    rw [← hsplit] at hc
    rw [last_trimEnd hc] at hblank
    cases hblank
  · rw [← hsplit, List.concat_eq_append, ← List.append_assoc, List.getLast?_concat] at hc
    obtain rfl := Option.some.inj hc
    have hpos : 0 < oddBlanks (before.concat d) :=
      List.countP_pos_iff.2 ⟨d, by simp, by simp [hblank, hodd]⟩
    omega

/-- Pieces and those left out of them have the odd blanks of all. -/
theorem oddBlanks_spell_filter (ps : List Piece) (p : Piece → Bool) :
    oddBlanks (spell ps) =
      oddBlanks (spell (ps.filter p)) + oddBlanks (spell (ps.filter fun q => !p q)) := by
  induction ps with
  | nil => rfl
  | cons q ps ih =>
    rw [spell_cons, oddBlanks_append, ih, List.filter_cons, List.filter_cons]
    cases p q <;> simp [oddBlanks_append] <;> omega

/-- A piece has no more odd blanks than the text that it is part of. -/
theorem oddBlanks_le_spell {ps : List Piece} {p : Piece} (h : p ∈ ps) :
    oddBlanks p.2.toList ≤ oddBlanks (spell ps) := by
  obtain ⟨before, after, rfl⟩ := List.append_of_mem h
  rw [spell_append, spell_cons, oddBlanks_append, oddBlanks_append]
  omega

namespace SelectorList.Builder

variable {b : Builder} {t : Token} {s : Spacing} {v : List Seen}

/-- A token adds its own odd blanks at most, and less where the builder trims one. -/
theorem oddBlanks_feed (hvalid : (b.feed t s).1.valid = true) (ht : t.IsCut) :
    oddBlanks (b.feed t s).1.written ≤ oddBlanks b.written + oddBlanks t.text.toList ∧
      (oddBlanks b.written + oddBlanks t.text.toList ≤ oddBlanks (b.feed t s).1.written →
        (b.combines? t).isSome = true → b.TrimsBlank) := by
  by_cases hsep : b.separates t
  · have hcomb : b.combines? t = none := by
      rcases hcomb : b.combines? t with _ | c
      · rfl
      · exact absurd hsep (closed_of_combines hcomb hvalid).1
    have hmark : oddBlanks [',', ' '] = 0 := rfl
    rw [feed_of_separates hsep, written_finishSelector, oddBlanks_append, hmark, hcomb]
    exact ⟨Nat.le_add_right _ _, fun _ h => by cases h⟩
  rcases hcomb : b.combines? t with _ | c
  · obtain ⟨hfinished, _, hcurrent⟩ := feed_of_part (s := s) hsep hcomb
    have hseparator : ∀ s, oddBlanks (separator s).toList = 0 := by
      rintro (_ | _ | _) <;> rfl
    have hbetween : oddBlanks
        (if b.current.isEmpty || b.afterCombinator then "" else separator s).toList = 0 := by
      split
      · rfl
      · exact hseparator s
    rw [written_current hfinished hcurrent, oddBlanks_append, oddBlanks_append, hbetween]
    exact ⟨by omega, fun _ h => by cases h⟩
  · obtain ⟨hfinished, _, hcurrent⟩ := feed_of_combines (s := s) hcomb
    obtain ⟨_, hkind, hhead, hblank⟩ := of_combines hcomb
    have hmark : oddBlanks [c] = 0 ∧ oddBlanks [' ', c, ' '] = 0 := by
      simp [oddBlanks, hblank]
    obtain ⟨hle, hkept⟩ := oddBlanks_trimEnd b.current.toList
    rw [written_eq, written_eq, hfinished, hcurrent, ht.text_of_delim hkind hhead]
    simp only [oddBlanks_append, hmark]
    exact ⟨by omega, fun hnone _ => hkept (by omega)⟩

/-- The builder adds no odd blank to what it reads, and it keeps them all just if it trims none. -/
theorem oddBlanks_feedAll (hvalid : (b.feedAll v).valid = true)
    (hcut : ∀ seen ∈ v, seen.1.IsCut) :
    oddBlanks (b.feedAll v).written ≤
        oddBlanks b.written + oddBlanks (spell (v.map (·.1.piece))) ∧
      (oddBlanks b.written + oddBlanks (spell (v.map (·.1.piece))) ≤
        oddBlanks (b.feedAll v).written → b.SpacesKept v) := by
  induction v generalizing b with
  | nil => exact ⟨Nat.le_refl _, fun _ => trivial⟩
  | cons seen v ih =>
    obtain ⟨hthis, hcut⟩ := List.forall_mem_cons.1 hcut
    have hnext : (b.feed seen.1 seen.2).1.valid = true := valid_of_feedAll (v := v) hvalid
    have hread : b.feedAll (seen :: v) = (b.feed seen.1 seen.2).1.feedAll v := rfl
    obtain ⟨hstep, hkept⟩ := oddBlanks_feed hnext hthis
    obtain ⟨hmore, hrest⟩ := ih (b := (b.feed seen.1 seen.2).1) hvalid hcut
    rw [List.map_cons, spell_cons, oddBlanks_append, hread]
    have htext : oddBlanks seen.1.piece.2.toList = oddBlanks seen.1.text.toList := rfl
    refine ⟨by omega, fun hle => ⟨hkept (by omega), hrest (by omega)⟩⟩

end SelectorList.Builder

namespace Token

open Pattern

/-- A backslash that is a token by itself stands before a line break or at the end. -/
theorem break_of_slash {c : Char} {s : List Char} {n : Nat}
    (h : first ('\\' :: c :: s) = (.delim, n)) : c ∈ ['\n', '\r', '\x0c'] := by
  by_contra hbreak
  rcases form_of_first h with ⟨before, p, after, htable, _⟩ | ⟨hnone, _⟩
  · have hform : ∀ form ∈ forms, form.1 ≠ .delim := by decide
    refine absurd rfl (hform (.delim, p) ?_)
    rw [htable]
    exact List.mem_append_right _ List.mem_cons_self
  have hident := length?_eq_none.1 (hnone (.ident, identifier) (by simp [forms]))
  have hescape : (2, s) ∈ escape.ends (0, '\\' :: c :: s) := by
    simp only [List.mem_cons, List.not_mem_nil, or_false, not_or] at hbreak
    simp [escape, char, noneOf, ends, hbreak]
  have hstart : (2, s) ∈ (seq (opt (char '-')) nameStart).ends (0, '\\' :: c :: s) := by
    rw [ends, List.mem_flatMap]
    exact ⟨(0, '\\' :: c :: s), List.mem_append_right _ List.mem_cons_self,
      List.mem_append_right _ (List.mem_append_right _ hescape)⟩
  have hwhole : (2, s) ∈ identifier.ends (0, '\\' :: c :: s) := by
    rw [identifier, ends, List.mem_flatMap]
    refine ⟨(2, s), List.mem_append_right _ hstart, ?_⟩
    rw [ends_many rfl]
    exact List.mem_append_right _ List.mem_cons_self
  rw [hident] at hwhole
  cases hwhole

/-- White space comes before a token if the text starts with a line break. -/
theorem whitespace_of_break {p : Piece} {ps : List Piece} (h : Lexes (p :: ps) []) {c : Char}
    {s : List Char} (hspell : spell (p :: ps) = c :: s) (hc : c ∈ ['\n', '\r', '\x0c']) :
    p.1.isSignificant = false ∧ 0 < oddBlanks p.2.toList := by
  have hall : ∀ d ∈ ['\n', '\r', '\x0c'], (isSpace d && (Text.isBlank d && d != ' ')) = true :=
    List.all_eq_true.1 (by decide)
  obtain ⟨hspace, hblank⟩ := Bool.and_eq_true_iff.1 (hall c hc)
  have hne := ne_nil_of_first h.1
  have hfirst := h.1
  rw [List.append_nil, ← spell_cons, hspell, first_space hspace, Prod.mk.injEq] at hfirst
  refine ⟨by rw [← hfirst.1]; rfl, List.countP_pos_iff.2 ⟨c, ?_, hblank⟩⟩
  obtain ⟨d, rest, hcons⟩ := List.exists_cons_of_ne_nil hne
  rw [spell_cons, hcons, List.cons_append, List.cons.injEq] at hspell
  rw [hcons, hspell.1]
  exact List.mem_cons_self

/-- If no blank but plain ones stands between tokens, no backslash by itself stands before one. -/
theorem no_slash_of_oddBlanks {ps before after : List Piece} {p : Piece} (hlexes : Lexes ps [])
    (hodd : oddBlanks (spell (ps.filter fun q => !q.1.isSignificant)) = 0)
    (hfilter : ps.filter (·.1.isSignificant) = before ++ p :: after) (hafter : after ≠ []) :
    p ≠ (.delim, "\\") := by
  rintro rfl
  obtain ⟨done, ahead, rfl, _, hahead⟩ := List.filter_eq_append_iff.1 hfilter
  obtain ⟨lead, behind, rfl, _, _, hbehind⟩ := List.filter_eq_cons_iff.1 hahead
  obtain ⟨_, hslash, hlexes⟩ := lexes_append.1 (lexes_append.1 hlexes).2
  rcases behind with _ | ⟨q, behind⟩
  · exact hafter hbehind.symm
  obtain ⟨c, rest, hq⟩ := List.exists_cons_of_ne_nil (ne_nil_of_first hlexes.1)
  have hspell : spell (q :: behind) = c :: (rest ++ spell behind) := by
    rw [spell_cons, hq, List.cons_append]
  rw [List.append_nil, hspell] at hslash
  obtain ⟨hblank, hpos⟩ := whitespace_of_break hlexes hspell (break_of_slash hslash)
  have hmem : q ∈ done ++ (lead ++ (.delim, "\\") :: q :: behind) := by simp
  have hkept : (!q.1.isSignificant) = true := by rw [hblank]; rfl
  have hle := oddBlanks_le_spell (List.mem_filter (p := fun q : Piece => !q.1.isSignificant).2
    ⟨hmem, hkept⟩)
  omega

end Token

/-! ### Reading a print again -/

namespace Input

/-- The significant pieces of tokens are the pieces of the significant ones. -/
theorem filter_map_piece (ts : List Token) : (ts.map Token.piece).filter (·.1.isSignificant) =
    (ts.filter (·.kind.isSignificant)).map Token.piece :=
  List.filter_map

/-- The significant pieces of a source are the tokens that a reader sees in it. -/
theorem filter_pieces (i : Input) :
    i.pieces.filter (·.1.isSignificant) = i.seen.map (·.1.piece) := by
  rw [pieces, filter_map_piece, filter_tokens, seen, List.map_map, List.map_map]
  rfl

/-- The significant tokens of a source that holds none that a selector list may not hold. -/
theorem isCut_of_lexes {i : Input} (hlexes : Lexes i.pieces [])
    (hallowed : ∀ seen ∈ i.seen, seen.1.kind ∉ neverInSelectors) :
    ∀ seen ∈ i.seen, seen.1.IsCut := by
  generalize hseen : i.seen = v at hallowed ⊢
  induction v generalizing i with
  | nil => exact List.forall_mem_nil _
  | cons seen v ih =>
    obtain ⟨lead, src, hpieces, _, hk, _, hadvance, hmore⟩ := faces_of_seen hseen
    rw [hpieces] at hlexes
    obtain ⟨hthis, hallowed⟩ := List.forall_mem_cons.1 hallowed
    obtain ⟨_, hfirst, hbehind⟩ := lexes_append.1 hlexes
    have hlater := ih (hadvance ▸ hbehind) hmore hallowed
    refine List.forall_mem_cons.2 ⟨⟨⟨_, hfirst⟩, hk, ?_, ?_⟩, hlater⟩
    all_goals exact fun hbad => hthis (hbad ▸ by decide)

end Input

namespace Grammar

open SelectorList

variable {i : Input}

/-- A source that is a selector list as a whole. -/
structure HoldsList (i : Input) : Prop where
  lexes : Lexes i.pieces []
  goesOn : ∀ seen ∈ i.seen, endsSelectors seen.1.kind = false
  cut : ∀ seen ∈ i.seen, seen.1.IsCut
  valid : (Builder.empty.feedAll i.seen).isValid = true

/-- The selector list of such a source. -/
def listOf (i : Input) : SelectorList :=
  (Builder.empty.feedAll i.seen).list

namespace HoldsList

/-- A source that is a selector list is printed as its tokens, if it loses nothing. -/
theorem prints (h : HoldsList i) (hprints : PrintsWhole i.seen) :
    spell (Builder.empty.printed i.seen) = (listOf i).render.toList ∧
      Lexes (Builder.empty.printed i.seen) [] := by
  have hfinish := finishes_of_isValid h.valid
  have hspaces := (Builder.spacesKept_empty_iff h.cut h.goesOn hfinish.1).2 hprints.blanks
  have hwritten := Builder.written_printed h.cut hfinish.1 Builder.behind_empty hspaces [] rfl
  rw [(Builder.blanks_of_closed hfinish.2.1 hfinish.2.2.1).1, List.append_nil,
    List.nil_append] at hwritten
  have hjoins := Builder.joins_printed h.lexes rfl h.cut h.goesOn hprints.slash h.valid
    Builder.behind_empty
  exact ⟨hwritten, (hjoins.follow h.lexes).1⟩

/-- If the tokens of a source are those of its print, it loses nothing. -/
theorem printsWhole (h : HoldsList i)
    (hsame : (pieces (listOf i).render.toList).filter (·.1.isSignificant) =
      i.seen.map (·.1.piece)) : PrintsWhole i.seen := by
  have hvalid := (finishes_of_isValid h.valid).1
  obtain ⟨hlexes, hspell⟩ := lexes_pieces (listOf i).render.toList
  have hsum := oddBlanks_spell_filter (pieces (listOf i).render.toList) (·.1.isSignificant)
  rw [hspell, hsame] at hsum
  have hwritten : (listOf i).render.toList = (Builder.empty.feedAll i.seen).written := rfl
  obtain ⟨hle, hkept⟩ := Builder.oddBlanks_feedAll hvalid h.cut
  rw [← hwritten, show oddBlanks Builder.empty.written = 0 from rfl, Nat.zero_add] at hle hkept
  refine ⟨fun seen hseen => ?_,
    (Builder.spacesKept_empty_iff h.cut h.goesOn hvalid).1 (hkept (by omega))⟩
  rw [Bool.eq_false_iff]
  intro hmark
  obtain ⟨before, more, hsplit⟩ := List.append_of_mem hseen
  have hne : i.seen ≠ [] := by
    intro hnone
    rw [hnone] at hseen
    cases hseen
  rw [← List.dropLast_concat_getLast hne, hsplit] at hsame
  refine no_slash_of_oddBlanks hlexes (by omega) (p := seen.1.piece)
    (by simpa using hsame) ?_ ?_
  · simp
  · rw [isMark, Bool.and_eq_true, beq_iff_eq, beq_iff_eq] at hmark
    have htext := (h.cut seen (List.dropLast_subset _ hseen)).text_of_delim hmark.1 hmark.2
    exact Prod.ext hmark.1 (String.toList_inj.1 htext)

end HoldsList

/-- A source is a selector list as a whole if one is read from it and nothing is left. -/
theorem holdsList_of_parse {source : String} {file : Option String} {config : Config}
    {list : SelectorList}
    (hparse : (SelectorList.parse (tokenize source file) config).1 = some list)
    (hend : (SelectorList.parse (tokenize source file) config).2.rest = []) :
    HoldsList (.ofTokens (tokenize source file)) ∧
      list = listOf (.ofTokens (tokenize source file)) := by
  obtain ⟨hlist, hrest⟩ := SelectorList.parse_eq (tokenize source file) config
  have hseen : (Parser.ofTokens (tokenize source file) config).rest =
    (Input.ofTokens (tokenize source file)).seen := rfl
  rw [hend, List.append_nil, hseen] at hrest
  rw [hparse, hseen, hrest, eq_comm, Option.ite_none_right_eq_some, Option.some.injEq] at hlist
  have hlexes := lexes_tokenize source file
  have hgoes : ∀ seen ∈ (Input.ofTokens (tokenize source file)).seen,
      endsSelectors seen.1.kind = false := by
    rw [← hrest]
    exact fun seen hmem => not_ends_of_mem_untilBrace hmem
  have hlisted := (isValid_iff_isSelectorList (worded_tokenize source file).seen_ne hgoes).1 hlist.1
  exact ⟨⟨hlexes, hgoes, Input.isCut_of_lexes hlexes hlisted.allowed, hlist.1⟩, hlist.2.symm⟩

/-- The significant tokens of a source, as they are seen from its start. -/
theorem significant_tokenize (source : String) (file : Option String) :
    ((tokenize source file).filter (·.kind.isSignificant)).map Token.piece =
      (Input.ofTokens (tokenize source file)).seen.map (·.1.piece) := by
  obtain ⟨ts, eof, htokens, heof, _, htake⟩ := tokenize_eq source file
  have hnone : [eof].filter (·.kind.isSignificant) = [] := by simp [heof, Kind.isSignificant]
  rw [← Input.filter_pieces, Input.pieces, Input.tokens_ofTokens, htake, Input.filter_map_piece,
    htokens, List.filter_append, hnone, List.append_nil]

/-- What is printed of a source is read as the source was, if it loses nothing. -/
theorem HoldsList.reads_back {i : Input} (h : HoldsList i) (hprints : PrintsWhole i.seen)
    (file : Option String) (config : Config) :
    (Input.ofTokens (tokenize (listOf i).render file)).seen.map (·.1.piece) =
        i.seen.map (·.1.piece) ∧
      (SelectorList.parse (tokenize (listOf i).render file) config).1 = some (listOf i) := by
  obtain ⟨hspell, hlexes⟩ := h.prints hprints
  have hpieces := pieces_of_lexes hlexes
  rw [List.append_nil, pieces_nil, List.append_nil, hspell, ← pieces_tokenize _ file] at hpieces
  obtain ⟨hfeed, hseen⟩ := Builder.feedAll_printed hpieces h.cut
  refine ⟨hseen, ?_⟩
  have hparsed := (SelectorList.parse_eq (tokenize (listOf i).render file) config).1
  have hgoes : untilBrace (Input.ofTokens (tokenize (listOf i).render file)).seen =
      (Input.ofTokens (tokenize (listOf i).render file)).seen := by
    refine List.takeWhile_eq_self_iff.2 fun seen hmem => ?_
    have hpiece : seen.1.piece ∈ i.seen.map (·.1.piece) := hseen ▸ List.mem_map_of_mem hmem
    obtain ⟨old, hold, hsame⟩ := List.mem_map.1 hpiece
    have hkind : seen.1.kind = old.1.kind := congrArg Prod.fst hsame.symm
    rw [hkind, h.goesOn old hold]
    rfl
  have hrest : (Parser.ofTokens (tokenize (listOf i).render file) config).rest =
    (Input.ofTokens (tokenize (listOf i).render file)).seen := rfl
  rw [hparsed, hrest, hgoes, hfeed, if_pos h.valid]
  rfl

end Grammar

/-- A selector list that is all of a source is printed as the tokens of the source and read back
just if the print loses nothing. -/
theorem selectors_read_back_iff (source : String) (file file' : Option String) (config : Config)
    (tokens : List Token) (hscan : Token.scan source file = .ok tokens) (list : SelectorList)
    (hparse : (SelectorList.parse tokens config).1 = some list)
    (hend : (SelectorList.parse tokens config).2.rest = []) :
    (∃ again, Token.scan list.render file' = .ok again ∧
      (again.filter (·.kind.isSignificant)).map Token.piece =
        (tokens.filter (·.kind.isSignificant)).map Token.piece ∧
      (SelectorList.parse again config).1 = some list) ↔
    PrintsWhole (Parser.ofTokens tokens config).rest := by
  rw [scan_eq_tokenize, Except.ok.injEq] at hscan
  subst hscan
  obtain ⟨hholds, rfl⟩ := Grammar.holdsList_of_parse hparse hend
  rw [Grammar.significant_tokenize]
  constructor
  · rintro ⟨again, hagain, hsame, _⟩
    rw [scan_eq_tokenize, Except.ok.injEq] at hagain
    subst hagain
    rw [Grammar.significant_tokenize, ← Input.filter_pieces, pieces_tokenize] at hsame
    exact hholds.printsWhole hsame
  · intro hprints
    obtain ⟨hseen, hagain⟩ := hholds.reads_back hprints file' config
    exact ⟨_, scan_eq_tokenize _ _, (Grammar.significant_tokenize _ _).trans hseen, hagain⟩

/-- An escaped blank is kept before a combinator, but of a word that ends in a no-break space that
is trimmed. -/
theorem selectors_read_back_iff_of_blanks :
    (∃ again, Token.scan "a\\ > b/**/c, [d=\">\"] ~ e" none = .ok again ∧
      (again.filter (·.kind.isSignificant)).map Token.piece =
        ((tokenize "a\\ >b/**/c , [d=\">\"]~e" none).filter (·.kind.isSignificant)).map
          Token.piece ∧
      (SelectorList.parse again .strict).1 =
        some ⟨["a\\ > b/**/c", "[d=\">\"] ~ e"]⟩) ∧
    ¬ ∃ again, Token.scan "a > b" none = .ok again ∧
      (again.filter (·.kind.isSignificant)).map Token.piece =
        ((tokenize "a\u00a0>b" none).filter (·.kind.isSignificant)).map Token.piece ∧
      (SelectorList.parse again .strict).1 = some ⟨["a > b"]⟩ := by
  refine ⟨?_, fun hagain => ?_⟩
  · exact (selectors_read_back_iff "a\\ >b/**/c , [d=\">\"]~e" none none .strict _
      (scan_eq_tokenize _ _) ⟨["a\\ > b/**/c", "[d=\">\"] ~ e"]⟩ (by decide +kernel)
      (by decide +kernel)).2 (by decide +kernel)
  · exact absurd ((selectors_read_back_iff "a\u00a0>b" none none .strict _ (scan_eq_tokenize _ _)
      ⟨["a > b"]⟩ (by decide +kernel) (by decide +kernel)).1 hagain) (by decide +kernel)

end Cssom
