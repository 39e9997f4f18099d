import Cssom.Proofs.Selector.Acceptance
import Cssom.Proofs.Token.Joined

/-!
# How selectors are printed

What the builder writes for the tokens of a selector list are these tokens with what `joint` puts
before each of them (`printed`). The builder trims its text before a combinator; that does no harm
if the text ends there in no blank but an escaped one, for which the blank before the combinator
then stands in (`SpacesKept`). What is printed is cut into the same tokens again (`joins_printed`),
and these take the builder through the same states (`feedAll_printed`).
-/

namespace Cssom

open Token

/-! ### Tokens of a source -/

/-- A token that was cut from a text, and is neither unfinished nor spoiled. -/
structure Token.IsCut (t : Token) : Prop where
  first_eq : ∃ s, first (t.text.toList ++ s) = (t.kind, t.text.toList.length)
  significant : t.kind.isSignificant = true
  whole : t.kind ≠ .badString ∧ t.kind ≠ .badUrl

namespace Token.IsCut

variable {t : Token}

/-- A token that was cut from a text has characters. -/
theorem ne_nil (h : t.IsCut) : t.text.toList ≠ [] :=
  let ⟨_, hfirst⟩ := h.first_eq
  ne_nil_of_first hfirst

/-- A token that was cut from a text is not the empty text. -/
theorem text_ne (h : t.IsCut) : t.text ≠ "" :=
  fun htext => h.ne_nil (String.toList_eq_nil_iff.2 htext)

/-- A token of a kind with a fixed spelling is spelt that way. -/
theorem text_of_spelling (h : t.IsCut) {spelling : String} (hs : t.kind.spelling? = some spelling) :
    t.text.toList = spelling.toList := by
  obtain ⟨s, hfirst⟩ := h.first_eq
  exact toList_of_spelling hfirst hs

/-- A delimiter is a single character. -/
theorem text_of_delim (h : t.IsCut) (hkind : t.kind = .delim) {c : Char}
    (hhead : t.text.toList.head? = some c) : t.text.toList = [c] := by
  obtain ⟨s, hfirst⟩ := h.first_eq
  rw [hkind] at hfirst
  obtain ⟨d, hd⟩ := List.length_eq_one_iff.1 (length_of_delim hfirst)
  rw [hd, List.head?_cons, Option.some.injEq] at hhead
  rw [hd, hhead]

/-- A blank at the end of a token is escaped. -/
theorem escaped (h : t.IsCut) (hlast : t.text.toList.getLast? = some ' ') :
    ∃ y, t.text.toList = y ++ ['\\', ' '] := by
  obtain ⟨s, hfirst⟩ := h.first_eq
  exact escaped_of_getLast hfirst h.significant h.whole.1 h.whole.2 hlast (by decide)

end Token.IsCut

/-- A significant token of a source, as it stands there. -/
theorem Input.faces_of_seen {i : Input} {seen : Seen} {more : List Seen}
    (h : i.seen = seen :: more) : ∃ lead src, i.pieces = lead ++ seen.1.piece :: src ∧
      AreTrivia lead ∧ seen.1.kind.isSignificant = true ∧ seen.2 = spacingOf lead ∧
      i.advance.pieces = src ∧ i.advance.seen = more := by
  obtain ⟨htoken, hspacing, hmore⟩ := Input.view_of_seen (t := seen.1) (s := seen.2) h
  rcases i.faces_cases with ⟨_, hkind, _⟩ | ⟨lead, p, src, hpieces, hlead, hp, hfaces⟩
  · rw [Input.seen_eq_nil_iff.2 hkind] at h
    cases h
  obtain rfl : seen.1.piece = p := by
    rw [← htoken]
    exact Prod.ext hfaces.kind hfaces.text
  exact ⟨lead, src, hpieces, hlead, hp, hspacing ▸ hfaces.spacing, hfaces.advance, hmore⟩

end Cssom

namespace Cssom.SelectorList.Builder

open Token Grammar

variable {b : Builder} {t : Token} {s : Spacing} {lead : List Piece} {before : Option Token}
  {v : List Seen} {i : Input}

/-! ### What is printed before a token -/

/-- What is printed before a combinator: a blank, unless the text ends in one. -/
def blankBefore (b : Builder) : List Piece :=
  if b.current.toList.getLast? = some ' ' then [] else [blank]

/-- What is printed before a token. -/
def joint (b : Builder) (t : Token) (s : Spacing) : List Piece :=
  if (b.combines? t).isSome then b.blankBefore else b.gap t s

/-- What the builder knows of the token before the cursor: if there is none, it has read nothing,
and unless it waits behind a divider, its text ends in that token. -/
structure Behind (b : Builder) (before : Option Token) : Prop where
  fresh : b.fresh = before.isNone
  cut : ∀ t ∈ before, t.IsCut
  text : ∀ t ∈ before, b.waits = false → t.text.toList <:+ b.current.toList
  after : b.afterCombinator = true → b.current.isEmpty = false

/-- Before the first token nothing is known and nothing is written. -/
theorem behind_empty : Behind .empty none where
  fresh := rfl
  cut _ ht := by cases ht
  text _ ht := by cases ht
  after h := by cases h

/-- Whether what the builder trims before a combinator is an escaped blank, if anything. -/
def TrimsBlank (b : Builder) : Prop :=
  ∀ c ∈ b.current.toList.getLast?, Text.isBlank c = true → c = ' '

/-- Of an escaped blank at the end of a text, the backslash is left. -/
theorem trimEnd_escaped (x : List Char) : Text.trimEnd (x ++ ['\\', ' ']) = x ++ ['\\'] := by
  simp [Text.trimEnd, Text.isBlank]

/-- A text that ends in a blank ends in the token before the cursor, which ends in an escape. -/
theorem Behind.escaped (hb : b.Behind before) (hcurrent : b.current.isEmpty = false)
    (hafter : b.afterCombinator = false) (hlast : b.current.toList.getLast? = some ' ') :
    ∃ t ∈ before, '\\' ∈ t.text.toList ∧ ∃ x, b.current.toList = x ++ ['\\', ' '] := by
  have hfresh := hb.fresh
  rw [(blanks_of_closed hcurrent hafter).2.1] at hfresh
  obtain ⟨t, rfl⟩ := Option.isSome_iff_exists.1 (Option.isNone_eq_false_iff.1 hfresh.symm)
  have hwaits : b.waits = false := by rw [waits, hcurrent, hafter, Bool.or_false]
  obtain ⟨x, hx⟩ := hb.text t rfl hwaits
  have ht := hb.cut t rfl
  rw [← hx, List.getLast?_append_of_ne_nil _ ht.ne_nil] at hlast
  obtain ⟨y, hy⟩ := ht.escaped hlast
  refine ⟨t, rfl, by simp [hy], x ++ y, ?_⟩
  rw [← hx, hy, List.append_assoc]

/-- What is printed before a token, and the token, are what the builder adds for it. -/
theorem adds_joint (ht : t.IsCut) (hvalid : (b.feed t s).1.valid = true) (hb : b.Behind before)
    (htrims : (b.combines? t).isSome = true → b.TrimsBlank) : b.Adds t s (b.joint t s) := by
  rcases hcomb : b.combines? t with _ | c
  · have hjoint : b.joint t s = b.gap t s := by rw [joint, hcomb]; rfl
    rw [hjoint]
    by_cases hsep : b.separates t
    · rw [gap_of_separates hsep hvalid]
      have htext : t.text.toList = ",".toList := ht.text_of_spelling (by rw [hsep.1]; rfl)
      exact adds_separator hsep hvalid htext
    · exact adds_part hsep hcomb hb.after ht.ne_nil
  obtain ⟨_, hkind, hhead, _⟩ := of_combines hcomb
  obtain ⟨_, hcurrent, hafter⟩ := closed_of_combines hcomb hvalid
  have hjoint : b.joint t s = b.blankBefore := by rw [joint, hcomb]; rfl
  rw [hjoint]
  refine adds_combinator hcomb hvalid (ht.text_of_delim hkind hhead) ?_
  rw [blankBefore]
  split
  · next hlast =>
    obtain ⟨_, _, _, x, hx⟩ := hb.escaped hcurrent hafter hlast
    rw [hx, trimEnd_escaped]
    simp
  · next hlast =>
    rw [trimEnd_eq]
    · rfl
    · intro c hc
      rw [Bool.eq_false_iff]
      intro hblank
      exact hlast (htrims (by rw [hcomb]; rfl) c hc hblank ▸ hc)

/-- What is printed before a token may stand there. -/
theorem joinedBy_joint (ht : t.IsCut) (hvalid : (b.feed t (spacingOf lead)).1.valid = true)
    (hb : b.Behind before) :
    JoinedBy (before.map (·.text)) lead t.piece (b.joint t (spacingOf lead)) := by
  have hfresh := hb.fresh
  rcases hcomb : b.combines? t with _ | c
  · have hjoint : b.joint t (spacingOf lead) = b.gap t (spacingOf lead) := by
      rw [joint, hcomb]
      rfl
    have hspaced := b.spaced_gap t lead
    rw [hjoint]
    rw [hfresh] at hspaced
    rcases before with _ | before
    · exact (hspaced.resolve_right fun h => Bool.false_ne_true h.1.symm).2
    · rcases (hspaced.resolve_left fun h => Bool.false_ne_true h.1).2 with
        hblank | ⟨hnone, hlead⟩ | ⟨hcomment, _⟩
      · exact Or.inl hblank
      · exact Or.inr (Or.inr ⟨hnone, hlead.imp_right Or.inl⟩)
      · exact Or.inr (Or.inl hcomment)
  obtain ⟨_, hkind, hhead, _⟩ := of_combines hcomb
  obtain ⟨_, hcurrent, hafter⟩ := closed_of_combines hcomb hvalid
  have hjoint : b.joint t (spacingOf lead) = b.blankBefore := by rw [joint, hcomb]; rfl
  rw [(blanks_of_closed hcurrent hafter).2.1] at hfresh
  obtain ⟨text, rfl⟩ := Option.isSome_iff_exists.1 (Option.isNone_eq_false_iff.1 hfresh.symm)
  rw [hjoint, blankBefore]
  split
  · next hlast =>
    obtain ⟨_, htext, hslash, _⟩ := hb.escaped hcurrent hafter hlast
    obtain rfl := Option.some.inj htext
    refine Or.inr (Or.inr ⟨rfl, Or.inr (Or.inr ⟨hslash, c, [], ht.text_of_delim hkind hhead, ?_⟩)⟩)
    rw [combines?] at hcomb
    split at hcomb
    · exact List.mem_of_find?_eq_some hcomb
    · cases hcomb
  · exact Or.inl rfl

/-- The builder knows the token that it took. -/
theorem behind_feed (ht : t.IsCut) : (b.feed t s).1.Behind (some t) := by
  have hcut : ∀ u ∈ some t, u.IsCut := fun _ hu => Option.some.inj hu ▸ ht
  by_cases hsep : b.separates t
  · rw [feed_of_separates hsep]
    refine ⟨by simp [fresh, finishSelector], hcut, fun _ _ hwaits => ?_, fun hafter => ?_⟩
    · exact absurd hwaits (by simp [waits, finishSelector])
    · exact absurd hafter (by simp [finishSelector])
  rcases hcomb : b.combines? t with _ | c
  · have hempty := isEmpty_of_part (s := s) hsep hcomb ht.ne_nil
    obtain ⟨_, hafter, hcurrent⟩ := feed_of_part (s := s) hsep hcomb
    refine ⟨(blanks_of_closed hempty hafter).2.1, hcut, fun u hu _ => ?_, fun _ => hempty⟩
    rw [hcurrent, ← List.append_assoc, Option.some.inj hu]
    exact List.suffix_append _ _
  · have hempty := isEmpty_of_combines (s := s) hcomb
    refine ⟨by simp [fresh, hempty], hcut, fun _ _ hwaits => ?_, fun _ => hempty⟩
    rw [waits, (feed_of_combines hcomb).2.1, Bool.or_true] at hwaits
    cases hwaits

/-! ### What is printed of a list -/

/-- The tokens of a list as they are printed from a builder on. -/
def printed (b : Builder) : List Seen → List Piece
  | [] => []
  | seen :: more =>
    b.joint seen.1 seen.2 ++ seen.1.piece :: (b.feed seen.1 seen.2).1.printed more

/-- Wherever a builder takes a combinator, its text ends in no blank but a plain one. -/
def SpacesKept (b : Builder) : List Seen → Prop
  | [] => True
  | seen :: more => ((b.combines? seen.1).isSome = true → b.TrimsBlank) ∧
      (b.feed seen.1 seen.2).1.SpacesKept more

/-- What was shown so far, and then the tokens as they are printed, is what the builder has
written. -/
theorem written_printed (hcut : ∀ seen ∈ v, seen.1.IsCut) (hvalid : (b.feedAll v).valid = true)
    (hb : b.Behind before) (hspaces : b.SpacesKept v) (shown : List Char)
    (hshown : shown ++ b.blanks = b.written) :
    shown ++ spell (b.printed v) ++ (b.feedAll v).blanks = (b.feedAll v).written := by
  induction v generalizing b before shown with
  | nil => rwa [printed, spell_nil, List.append_nil]
  | cons seen v ih =>
    obtain ⟨hseen, hcut⟩ := List.forall_mem_cons.1 hcut
    have hnext : (b.feed seen.1 seen.2).1.valid = true := valid_of_feedAll (v := v) hvalid
    have hadds := adds_joint (s := seen.2) hseen hnext hb hspaces.1 shown hshown
    have hmore := ih hcut hvalid (behind_feed hseen) hspaces.2 _ hadds
    rw [printed, spell_append, spell_cons, ← List.append_assoc, ← List.append_assoc]
    rw [← List.append_assoc] at hmore
    exact hmore

/-! ### The print is read back -/

/-- In brackets, white space before a token is printed as a blank. -/
theorem joint_of_nested (hopen : b.closers ≠ []) (hwaits : b.waits = false)
    (hlead : ∀ p ∈ lead.head?, p.1 = .whitespace) :
    b.joint t (spacingOf lead) = valueSeparator false lead := by
  obtain ⟨hcurrent, hafter⟩ := Bool.or_eq_false_iff.1 hwaits
  obtain ⟨_, hfresh, hpending⟩ := blanks_of_closed hcurrent hafter
  have hcomb : b.combines? t = none := by
    rw [combines?, List.isEmpty_eq_false_iff.2 hopen]
    rfl
  have hsep : ¬ b.separates t := fun h => hopen h.2
  simp only [joint, gap, hcomb, hfresh, hpending, hsep, Option.isSome_none, Bool.false_eq_true,
    if_false]
  rcases lead with _ | ⟨q, lead⟩
  · rfl
  · have hspace : spacingOf (q :: lead) = .space := by
      rw [spacingOf, List.any_cons, hlead q rfl]
      rfl
    rw [hspace]
    rfl

/-- A token of blanks closes no bracket. -/
theorem open_of_blanks (ht : t.IsCut) (hblanks : ∀ c ∈ t.text.toList, Text.isBlank c = true)
    (hopen : opened ≠ []) : (openAfter opened t.kind).getD opened ≠ [] := by
  rcases hstep : openAfter opened t.kind with _ | opened'
  · exact hopen
  rcases openAfter_eq_some_iff.1 hstep with ⟨closer, _, rfl⟩ | ⟨hcloses, _⟩ | ⟨_, _, rfl⟩
  · exact List.cons_ne_nil _ _
  · have hmark : ∃ c, t.text.toList = [c] ∧ Text.isBlank c = false := by
      rcases hkind : t.kind <;> rw [hkind] at hcloses <;> try cases hcloses
      · exact ⟨']', by rw [ht.text_of_spelling (by rw [hkind]; rfl)]; rfl, by decide⟩
      · exact ⟨')', by rw [ht.text_of_spelling (by rw [hkind]; rfl)]; rfl, by decide⟩
      · exact ⟨'\x7d', by rw [ht.text_of_spelling (by rw [hkind]; rfl)]; rfl, by decide⟩
    obtain ⟨c, htext, hc⟩ := hmark
    rw [hblanks c (htext ▸ List.mem_cons_self)] at hc
    cases hc
  · exact hopen

/-- In brackets, what is printed shuts out addresses if the source does. -/
theorem shutFrom_printed {stage : Stage} (hlexes : Lexes i.pieces []) (hseen : i.seen = v)
    (hcut : ∀ seen ∈ v, seen.1.IsCut) (hends : ∀ seen ∈ v, endsSelectors seen.1.kind = false)
    (hvalid : (b.feedAll v).isValid = true) (hopen : b.closers ≠ []) (hwaits : b.waits = false)
    (hsrc : shutFrom stage (spell i.pieces) = true) :
    shutFrom stage (spell (b.printed v)) = true := by
  induction v generalizing i b stage with
  | nil => exact absurd (finishes_of_isValid hvalid).2.2.2 hopen
  | cons seen v ih =>
    obtain ⟨hthis, hcut⟩ := List.forall_mem_cons.1 hcut
    obtain ⟨hend, hends⟩ := List.forall_mem_cons.1 hends
    obtain ⟨lead, src, hpieces, hlead, hk, hspacing, hadvance, hmore⟩ := Input.faces_of_seen hseen
    rw [hpieces] at hlexes hsrc
    obtain ⟨htrivia, hfirst, hbehind⟩ := lexes_append.1 hlexes
    rw [List.append_nil] at htrivia
    rw [spell_append] at hsrc
    have hjoint : b.joint seen.1 seen.2 = valueSeparator false lead := by
      rw [hspacing]
      refine joint_of_nested hopen hwaits fun q hq => ?_
      obtain ⟨more, rfl⟩ := List.head?_eq_some_iff.1 hq
      rw [spell_cons, List.append_assoc] at hsrc
      exact whitespace_of_shutFrom htrivia.1 (hlead q List.mem_cons_self) hsrc
    rw [printed, hjoint, spell_append]
    refine shutFrom_separator hlead htrivia hsrc fun stage hstage => ?_
    refine shutFrom_append (fun hblanks stage hrest => ?_) hstage
    -- a token that is all blanks neither opens nor closes a bracket
    refine ih (hadvance ▸ hbehind) hmore hcut hends hvalid ?_ ?_ (hadvance ▸ hrest)
    · rw [closers_feed hend]
      exact open_of_blanks hthis hblanks hopen
    · rw [waits_feed hthis.text_ne, List.isEmpty_eq_false_iff.2 hopen, Bool.false_and]

/-- What is printed of a source is cut into the same tokens again. A backslash that is a token by
itself may be the last one only. -/
theorem joins_printed (hlexes : Lexes i.pieces []) (hseen : i.seen = v)
    (hcut : ∀ seen ∈ v, seen.1.IsCut) (hends : ∀ seen ∈ v, endsSelectors seen.1.kind = false)
    (hslash : ∀ seen ∈ v.dropLast, seen.1.isMark '\\' = false)
    (hvalid : (b.feedAll v).isValid = true) (hb : b.Behind before) :
    Joins (before.map (·.text)) i.pieces (b.printed v) := by
  induction v generalizing i b before with
  | nil => exact .ends
  | cons seen v ih =>
    obtain ⟨hthis, hcut⟩ := List.forall_mem_cons.1 hcut
    obtain ⟨hend, hends⟩ := List.forall_mem_cons.1 hends
    obtain ⟨lead, src, hpieces, hlead, hk, hspacing, hadvance, hmore⟩ := Input.faces_of_seen hseen
    rw [hpieces] at hlexes ⊢
    obtain ⟨_, hfirst, hbehind⟩ := lexes_append.1 hlexes
    have hnext : (b.feed seen.1 seen.2).1.valid = true := by
      exact valid_of_feedAll (v := v) (finishes_of_isValid hvalid).1
    have hlater : ∀ next ∈ v.dropLast, next.1.isMark '\\' = false := by
      intro next hmem
      refine hslash next ?_
      rw [List.dropLast_cons_of_ne_nil (by rintro rfl; cases hmem)]
      exact List.mem_cons_of_mem _ hmem
    have hjoins := ih (i := i.advance) (hadvance ▸ hbehind) hmore hcut hends hlater hvalid
      (behind_feed hthis)
    rw [hadvance] at hjoins
    refine .token hlead hk hthis.whole.1 hthis.whole.2 ?_ (fun hdelim htext => ?_) (fun ho => ?_)
      hjoins
    · rw [hspacing] at hnext ⊢
      exact joinedBy_joint hthis hnext hb
    · rcases v with _ | ⟨next, more⟩
      · rfl
      · have hmark := hslash seen (by
          rw [List.dropLast_cons_of_ne_nil (List.cons_ne_nil _ _)]
          exact List.mem_cons_self)
        rw [isMark, hdelim, htext] at hmark
        exact absurd hmark (by decide)
    · rw [List.append_nil] at hfirst
      obtain ⟨hfunction, hnone⟩ := kind_of_opening ho hfirst
      have hopened := closers_of_function (b := b) (s := seen.2) hfunction
      refine shut_of_shutFrom
        (shutFrom_printed (hadvance ▸ hbehind) hmore hcut hends hvalid ?_ ?_ ?_)
      · rw [hopened]
        exact List.cons_ne_nil _ _
      · have hdivides : divides seen = false := by
          simp [divides, isCombinator, isMark, show seen.1.kind = .function from hfunction]
        rw [waits_feed hthis.text_ne, hdivides, Bool.and_false]
      · rw [hadvance]
        exact shutFrom_of_shut ho hnone

/-- Nothing but trivia is printed before a token. -/
theorem areTrivia_joint (b : Builder) (t : Token) (s : Spacing) : AreTrivia (b.joint t s) := by
  unfold joint
  split
  · rw [blankBefore]
    split
    · exact areTrivia_nil
    · exact areTrivia_singleton rfl
  · have hlead : ∃ lead, s = spacingOf lead := by
      cases s
      · exact ⟨[], rfl⟩
      · exact ⟨[blank], rfl⟩
      · exact ⟨[emptyComment], rfl⟩
    obtain ⟨lead, rfl⟩ := hlead
    exact areTrivia_of_spaced (b.spaced_gap t lead)

/-- A token is taken from a print as it was taken from the source. -/
theorem feed_joint {u : Token} {s' : Spacing} (hkind : u.kind = t.kind) (htext : u.text = t.text)
    (hs : s' = spacingOf (b.joint t s)) : (b.feed u s').1 = (b.feed t s).1 := by
  rcases hcomb : b.combines? t with _ | c
  · rw [joint, hcomb] at hs
    exact feed_congr hkind htext fun _ => hs
  · obtain ⟨_, hdelim, _⟩ := of_combines hcomb
    have hsep : ∀ {w : Token}, w.kind = .delim → ¬ b.separates w := fun hw h =>
      absurd (h.1.symm.trans hw) (by decide)
    have hcomb' : b.combines? u = some c := by
      rw [← hcomb]
      simp only [combines?, combinator?, isMark, hkind, htext]
    rw [feed_of_not_separates (hsep hdelim), feed_of_not_separates (hsep (hkind.trans hdelim)),
      after, after, hcomb, hcomb', hkind]

/-- What is read of a print takes the builder through the states that the source took it through. -/
theorem feedAll_printed {j : Input} (hpieces : j.pieces = b.printed v)
    (hcut : ∀ seen ∈ v, seen.1.IsCut) :
    b.feedAll j.seen = b.feedAll v ∧ j.seen.map (·.1.piece) = v.map (·.1.piece) := by
  induction v generalizing j b with
  | nil =>
    have hnone : j.seen = [] := by
      rw [Input.seen_eq_nil_iff, Input.kind_view, hpieces]
      rfl
    rw [hnone]
    exact ⟨rfl, rfl⟩
  | cons seen v ih =>
    obtain ⟨hthis, hcut⟩ := List.forall_mem_cons.1 hcut
    have htrivia := areTrivia_joint b seen.1 seen.2
    have hfaces := Input.faces_of_pieces hpieces htrivia hthis.significant
    have hseen := Input.seen_eq_cons (hfaces.kind_ne_eof hthis.significant)
    have hfed := feed_joint hfaces.kind hfaces.text hfaces.spacing
    obtain ⟨hfeed, hmap⟩ := ih (j := j.advance) (b := (b.feed seen.1 seen.2).1) hfaces.advance hcut
    rw [hseen]
    refine ⟨?_, ?_⟩
    · show (b.feed j.view.token j.view.spacing).1.feedAll j.advance.seen = _
      rw [hfed, hfeed]
      rfl
    · rw [List.map_cons, List.map_cons, hmap]
      congr 1
      exact Prod.ext hfaces.kind hfaces.text

end Cssom.SelectorList.Builder
