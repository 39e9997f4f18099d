import Cssom.Proofs.Token.Identifier
import Cssom.Proofs.Token.Respaced

/-!
# Tokens printed before combinators

A selector is printed with other spacing than its source: with blanks around combinators and behind
commas, and with empty comments. What is printed so (`Joins`) is read back, whatever escapes it
holds (`Joins.lexes`). A token may stand before a combinator without a blank if it ends in an
escape, since no form goes on behind an escape into a combinator (`length?_append_combinator`).
-/

namespace Cssom.Pattern

/-! ### Patterns without escapes -/

/-- Whether the pattern takes no backslash. -/
def takesNoSlash : Pattern → Bool
  | one accepts => !accepts '\\'
  | nothing | atEnd => true
  | seq p q | alt p q => p.takesNoSlash && q.takesNoSlash
  | many unit | few unit => unit.takesNoSlash

/-- The second place is further on in the same text, with no backslash between the two. -/
def Skips (a b : Place) : Prop :=
  ∃ taken, a.2 = taken ++ b.2 ∧ '\\' ∉ taken

namespace Skips

/-- Nothing lies between a place and itself. -/
theorem refl (a : Place) : Skips a a := ⟨[], rfl, List.not_mem_nil⟩

/-- A backslash between two places lies before or behind any place between them. -/
theorem trans {a b c : Place} (hab : Skips a b) (hbc : Skips b c) : Skips a c := by
  obtain ⟨s, hs, hslash⟩ := hab
  obtain ⟨t, ht, hslash'⟩ := hbc
  refine ⟨s ++ t, by rw [hs, ht, List.append_assoc], ?_⟩
  rw [List.mem_append, not_or]
  exact ⟨hslash, hslash'⟩

/-- With no backslash between, a place does not lie beyond the first part of a text that has one. -/
theorem of_append {x w : List Char} {n : Nat} {b : Place} (h : Skips (n, x ++ w) b)
    (hslash : '\\' ∈ x) : ∃ taken left, x = taken ++ left ∧ b.2 = left ++ w ∧ '\\' ∉ taken := by
  obtain ⟨taken, hsplit, htaken⟩ := h
  rcases List.append_eq_append_iff.1 (show x ++ w = taken ++ b.2 from hsplit) with
    ⟨more, rfl, rfl⟩ | ⟨left, rfl, hleft⟩
  · exact absurd (List.mem_append_left _ hslash) htaken
  · exact ⟨taken, left, rfl, hleft, htaken⟩

end Skips

/-- A pattern repeated as often as it matches takes no backslash, if the pattern takes none. -/
theorem skips_of_mem_endsMany {unit : Place → List Place}
    (hunit : ∀ a, ∀ b ∈ unit a, Skips a b) (rounds : List Char) (a : Place) :
    ∀ b ∈ endsMany unit rounds a, Skips a b := by
  induction rounds generalizing a with
  | nil =>
    intro b hb
    exact List.mem_singleton.1 hb ▸ .refl a
  | cons _ rounds ih =>
    intro b hb
    rw [endsMany, List.mem_append, List.mem_flatMap, List.mem_singleton] at hb
    rcases hb with ⟨m, hm, hb⟩ | rfl
    · exact (hunit a m hm).trans (ih m b hb)
    · exact .refl b

/-- A pattern repeated as seldom as will do takes no backslash, if the pattern takes none. -/
theorem skips_of_mem_endsFew {unit : Place → List Place}
    (hunit : ∀ a, ∀ b ∈ unit a, Skips a b) (rounds : List Char) (a : Place) :
    ∀ b ∈ endsFew unit rounds a, Skips a b := by
  induction rounds generalizing a with
  | nil =>
    intro b hb
    exact List.mem_singleton.1 hb ▸ .refl a
  | cons _ rounds ih =>
    intro b hb
    rw [endsFew, List.mem_cons, List.mem_flatMap] at hb
    rcases hb with rfl | ⟨m, hm, hb⟩
    · exact .refl b
    · exact (hunit a m hm).trans (ih m b hb)

/-- A pattern that takes no backslash ends before the next one. -/
theorem skips_of_mem_ends (p : Pattern) (h : p.takesNoSlash = true) (a : Place) :
    ∀ b ∈ p.ends a, Skips a b := by
  induction p generalizing a with
  | one accepts =>
    rcases a with ⟨n, _ | ⟨c, s⟩⟩
    · exact fun _ hb => absurd hb List.not_mem_nil
    · intro b hb
      rw [ends, List.mem_ite_nil_right, List.mem_singleton] at hb
      refine ⟨[c], by rw [hb.2]; rfl, ?_⟩
      rw [List.mem_singleton]
      rintro rfl
      rw [takesNoSlash, hb.1] at h
      exact absurd h (by decide)
  | nothing =>
    intro b hb
    exact List.mem_singleton.1 hb ▸ .refl a
  | atEnd =>
    intro b hb
    rw [ends, List.mem_ite_nil_right, List.mem_singleton] at hb
    exact hb.2 ▸ .refl a
  | seq first second ihFirst ihSecond =>
    intro b hb
    rw [takesNoSlash, Bool.and_eq_true] at h
    rw [ends, List.mem_flatMap] at hb
    obtain ⟨m, hm, hb⟩ := hb
    exact (ihFirst h.1 a m hm).trans (ihSecond h.2 m b hb)
  | alt preferred fallback ihPreferred ihFallback =>
    intro b hb
    rw [takesNoSlash, Bool.and_eq_true] at h
    rw [ends, List.mem_append] at hb
    rcases hb with hb | hb
    · exact ihPreferred h.1 a b hb
    · exact ihFallback h.2 a b hb
  | many unit ih => exact skips_of_mem_endsMany (fun a => ih h a) a.2 a
  | few unit ih => exact skips_of_mem_endsFew (fun a => ih h a) a.2 a

end Cssom.Pattern

namespace Cssom.Token

open Pattern

variable {t s w x : List Char} {k : Kind} {ps src lead : List Piece} {p : Piece}

/-! ### Behind an escape -/

/-- The characters that selectors are combined with. -/
def combinators : List Char :=
  ['>', '+', '~']

/-- No character of a name is a combinator. -/
theorem not_combinator_of_isNameChar {c : Char} (h : isNameChar c = true) : c ∉ combinators := by
  have hall : ∀ d ∈ combinators, (!isNameChar d) = true := List.all_eq_true.1 (by decide)
  intro hmem
  have hnot := hall c hmem
  rw [h] at hnot
  exact Bool.false_ne_true hnot

/-- A form without breaks takes no backslash, or takes no combinator; a dimension does the one and
then the other. -/
theorem skips_or_only : ∀ form ∈ forms, holdsBreaks form.1 = false →
    form.2.takesNoSlash = true ∨ Only (· ∉ combinators) form.2 ∨
      form.2 = seq numeral identifier := by
  have hname : ∀ {q : Pattern}, Only (fun c => isNameChar c = true) q →
      Only (· ∉ combinators) q :=
    fun h n s b hb taken hsplit =>
      (h n s b hb taken hsplit).mono fun _ => not_combinator_of_isNameChar
  have hident := hname only_isNameChar
  have hmark : ∀ {c : Char}, c ≠ '\\' → c ∉ combinators → Only (· ∉ combinators) (char c) :=
    fun hne hc => .char hne hc
  have hskips : ∀ {kind : Kind} {q : Pattern}, q.takesNoSlash = true →
      holdsBreaks kind = false → q.takesNoSlash = true ∨ Only (· ∉ combinators) q ∨
        q = seq numeral identifier := fun h _ => Or.inl h
  have htakes : ∀ {kind : Kind} {q : Pattern}, Only (· ∉ combinators) q →
      holdsBreaks kind = false → q.takesNoSlash = true ∨ Only (· ∉ combinators) q ∨
        q = seq numeral identifier := fun h _ => Or.inr (Or.inl h)
  simp only [forms, List.forall_mem_cons]
  refine ⟨fun h => absurd h (by decide), fun h => absurd h (by decide), hskips rfl, hskips rfl,
    fun h => absurd h (by decide), fun h => absurd h (by decide), hskips rfl,
    fun _ => Or.inr (Or.inr trivial), hskips rfl, hskips rfl,
    htakes (hident.seq (hmark (by decide) (by decide))), htakes hident,
    htakes ((hmark (by decide) (by decide)).seq hident),
    htakes ((hmark (by decide) (by decide)).seq
      ((hname only_isNameChar_nameChar).oneOrMore rfl)),
    fun h => absurd h (by decide), fun h => absurd h (by decide), hskips rfl, hskips rfl,
    hskips rfl, hskips rfl, hskips rfl, hskips rfl, hskips rfl, hskips rfl, hskips rfl,
    hskips rfl, hskips rfl, hskips rfl, hskips rfl, hskips rfl, hskips rfl,
    fun form hform => absurd hform List.not_mem_nil⟩

/-- Behind an escape a form without breaks matches before a combinator as if nothing followed. -/
theorem length?_append_combinator {form : Kind × Pattern} (hform : form ∈ forms)
    (hk : holdsBreaks form.1 = false) (hslash : '\\' ∈ x) (hsettled : Settled (fun _ => True) x)
    {c : Char} (hc : c ∈ combinators) (rest : List Char) :
    form.2.length? (x ++ c :: rest) = form.2.length? x := by
  have hne : c ≠ '\\' := by
    rintro rfl
    exact absurd hc (by decide)
  have hwithin : ∀ {q : Pattern}, Only (· ∉ combinators) q → ∀ n y,
      Settled (fun _ => True) y → ∀ b ∈ q.ends (n, y ++ c :: rest), b.1 ≤ n + y.length :=
    fun honly n y hy => honly.within (not_not_intro hc) hne hy
  apply length?_append_of_within (only_of_mem_forms form hform hk).1
  intro b hb
  rcases skips_or_only form hform hk with hskips | honly | hdimension
  · obtain ⟨taken, left, rfl, hleft, _⟩ :=
      (skips_of_mem_ends form.2 hskips _ b hb).of_append hslash
    have hlength := (form.2.splits_of_mem_ends _ b hb).length_eq
    simp only [hleft, List.length_append] at hlength ⊢
    omega
  · have hle := hwithin honly 0 x hsettled b hb
    omega
  · rw [hdimension, ends, List.mem_flatMap] at hb
    obtain ⟨m, hm, hb⟩ := hb
    obtain ⟨taken, left, rfl, hleft, htaken⟩ :=
      (skips_of_mem_ends numeral rfl _ m hm).of_append hslash
    have hlength := (numeral.splits_of_mem_ends _ m hm).length_eq
    have hbehind : Settled (fun _ => True) left :=
      (Settled.of_not_mem htaken).of_append hsettled
    have hidentifier : Only (· ∉ combinators) identifier := fun n s b hb taken hsplit =>
      (only_isNameChar n s b hb taken hsplit).mono fun _ => not_combinator_of_isNameChar
    have hle := hwithin hidentifier m.1 left hbehind b (by rw [← hleft]; exact hb)
    simp only [hleft, List.length_append] at hlength ⊢
    omega

/-! ### Where texts are cut off -/

/-- Whether tokens end where a text does if another follows it: none does, or one that stands apart,
or a combinator behind an escape. -/
def Severs (x w : List Char) : Prop :=
  w = [] ∨ Settled (fun _ => True) x ∧
    (Apart w ∨ '\\' ∈ x ∧ ∃ c rest, w = c :: rest ∧ c ∈ combinators)

namespace Severs

/-- A form that sees no break takes no more of a text when a severed one follows it. -/
theorem length?_eq (h : Severs x w) (hx : x ≠ []) {form : Kind × Pattern} (hform : form ∈ forms)
    (hk : holdsBreaks form.1 = false) : form.2.length? (x ++ w) = form.2.length? x := by
  rcases h with rfl | ⟨hsettled, hw | ⟨hslash, c, rest, rfl, hc⟩⟩
  · rw [List.append_nil]
  · exact length?_append_apart hform hk hx hsettled hw
  · exact length?_append_combinator hform hk hslash hsettled hc rest

/-- A severed text starts with nothing that opens a comment or an address. -/
theorem not_opens (h : Severs x w) : ∀ c ∈ w.head?, c ∉ opens := by
  rcases h with rfl | ⟨_, hw | ⟨_, c, rest, rfl, hc⟩⟩
  · exact fun c hc => absurd hc (by simp)
  · exact hw.not_opens
  · have hall : ∀ c ∈ combinators, (!opens.contains c) = true := List.all_eq_true.1 (by decide)
    rintro d hd hopens
    cases Option.some.inj hd
    have hnot := hall c hc
    rw [List.contains_iff_mem.2 hopens] at hnot
    exact Bool.false_ne_true hnot

end Severs

/-- Behind a token, two texts go on alike until the second one is cut off. -/
def AgreesBehind (t s p : List Char) : Prop :=
  ∃ u r w, s = u ++ r ∧ p = u ++ w ∧ Severs (t ++ u) w

namespace AgreesBehind

variable {p : List Char}

/-- Texts agree behind a token that is severed at once. -/
theorem of_severs (h : Severs t p) : AgreesBehind t s p :=
  ⟨[], s, p, rfl, rfl, by rwa [List.append_nil]⟩

/-- Texts agree behind a settled token if the second one stands apart. -/
theorem of_apart (ht : Settled (fun _ => True) t) (hp : Apart p) : AgreesBehind t s p :=
  of_severs (Or.inr ⟨ht, Or.inl hp⟩)

/-- What agrees behind a token agrees behind one before it. -/
theorem append {before : List Char} (hbefore : Settled (fun _ => True) before)
    (h : AgreesBehind t s p) : AgreesBehind before (t ++ s) (t ++ p) := by
  obtain ⟨u, r, w, rfl, rfl, hsevers⟩ := h
  refine ⟨t ++ u, r, w, (List.append_assoc _ _ _).symm, (List.append_assoc _ _ _).symm, ?_⟩
  rcases hsevers with rfl | ⟨hsettled, hw⟩
  · exact Or.inl rfl
  · exact Or.inr ⟨hbefore.append hsettled, hw.imp_right
      (And.imp_left fun hmem => List.mem_append_right _ hmem)⟩

end AgreesBehind

/-- A token stays the first one before any text that agrees with what followed it, if no address
stands there where the token may open one. -/
theorem first_join {p : List Char} (h : first (t ++ s) = (k, t.length))
    (hk : k.isSignificant = true) (hstring : k ≠ .badString) (hurl : k ≠ .badUrl)
    (hopen : IsOpening t → Shut p) (hagrees : AgreesBehind t s p) :
    first (t ++ p) = (k, t.length) := by
  have hne := ne_nil_of_first h
  cases hholds : holdsBreaks k with
  | true =>
    cases k <;> simp only [holdsBreaks, Bool.false_eq_true] at hholds
    case comment => exact absurd hk (by decide)
    case whitespace => exact absurd hk (by decide)
    case badString => exact absurd rfl hstring
    case badUrl => exact absurd rfl hurl
    case string => exact first_string_append h p
    case url => exact first_url_append h p
  | false =>
    obtain ⟨u, r, w, rfl, rfl, hsevers⟩ := hagrees
    rw [← List.append_assoc] at h ⊢
    have hx : t ++ u ≠ [] := List.append_ne_nil_of_left_ne_nil hne u
    refine first_append_of h (by simp) hx hholds
      (fun form hform hfalse => hsevers.length?_eq hx hform hfalse)
      (prefix_comment_of_append hx hsevers.not_opens)
      (fun o ho => ho.prefix_of_append hsevers.not_opens) ?_
    intro o v ho hsplit
    obtain ⟨rfl, rfl⟩ := opening_of_first h hne hholds ho hsplit
    exact hopen ho

/-! ### Printing with other spacing -/

/-- What may be printed before a token behind another one: a blank or an empty comment; or nothing,
if nothing stood there, or before a comma, or before a combinator if there is an escape in what
comes before it. -/
def JoinedBy (before : Option String) (lead : List Piece) (p : Piece) (sep : List Piece) : Prop :=
  match before with
  | none => sep = []
  | some text => sep = [blank] ∨ sep = [emptyComment] ∨
      sep = [] ∧ (lead = [] ∨ p.1 = .comma ∨
        '\\' ∈ text.toList ∧ ∃ c rest, p.2.toList = c :: rest ∧ c ∈ combinators)

/-- The second pieces are the first tokens of the first ones, printed with other spacing behind some
text. A backslash that is a token by itself is the last one, and no address stands where the source
calls a function of that name. -/
inductive Joins : Option String → List Piece → List Piece → Prop where
  | ends {before : Option String} {src : List Piece} : Joins before src []
  | token {before : Option String} {lead src sep ps : List Piece} {k : Kind} {t : String}
      (hlead : ∀ p ∈ lead, p.1.isSignificant = false) (hk : k.isSignificant = true)
      (hstring : k ≠ .badString) (hurl : k ≠ .badUrl) (hsep : JoinedBy before lead (k, t) sep)
      (hslash : k = .delim → t = "\\" → ps = []) (hopen : IsOpening t.toList → Shut (spell ps))
      (more : Joins (some t) src ps) : Joins before (lead ++ (k, t) :: src) (sep ++ (k, t) :: ps)

namespace Joins

variable {before : Option String}

/-- What is printed is read back, and agrees with the source behind what was printed before it. -/
theorem follow (h : Joins before src ps) (hsrc : Lexes src []) :
    Lexes ps [] ∧ ∀ text, before = some text →
      (ps ≠ [] → Settled (fun _ => True) text.toList) →
        AgreesBehind text.toList (spell src) (spell ps) := by
  induction h with
  | ends => exact ⟨trivial, fun _ _ _ => .of_severs (Or.inl rfl)⟩
  | @token before lead src sep ps k t hlead hk hstring hurl hsep hslash hopen more ih =>
    obtain ⟨hsource, hmore⟩ := (lexes_append.1 hsrc).2
    rw [List.append_nil] at hsource
    obtain ⟨hlexes, hagrees⟩ := ih hmore
    have hsettled : ps ≠ [] → Settled (fun _ => True) t.toList := fun hps =>
      settled_of_first hsource hk hstring hurl
        fun hdelim htext => hps (hslash hdelim (String.toList_inj.1 htext))
    have hbehind := hagrees t rfl hsettled
    have hhere : Lexes ((k, t) :: ps) [] := by
      refine ⟨?_, hlexes⟩
      rw [List.append_nil]
      exact first_join hsource hk hstring hurl hopen hbehind
    unfold JoinedBy at hsep
    rcases before with _ | text
    · exact ⟨by rw [hsep]; exact hhere, fun _ htext => by cases htext⟩
    refine ⟨?_, fun _ htext hbefore => ?_⟩
    · rcases hsep with rfl | rfl | ⟨rfl, _⟩
      · exact lexes_blank hk hhere
      · exact lexes_emptyComment hhere
      · exact hhere
    obtain rfl := Option.some.inj htext
    have hopened := hbefore (List.append_ne_nil_of_right_ne_nil _ (List.cons_ne_nil _ _))
    rcases hsep with rfl | rfl | ⟨rfl, rfl | hcomma | ⟨hescape, c, rest, hchars, hc⟩⟩
    · exact .of_apart hopened (Or.inr (Or.inl ⟨' ', _, rfl, by decide⟩))
    · exact .of_apart hopened (Or.inr (Or.inr ⟨_, rfl⟩))
    · exact hbehind.append hopened
    · have hmark := toList_of_spelling (hcomma ▸ hsource) rfl
      refine .of_apart hopened (Or.inr (Or.inl ⟨',', spell ps, ?_, by decide⟩))
      rw [List.nil_append, spell_cons, hmark]
      rfl
    · refine .of_severs (Or.inr ⟨hopened, Or.inr ⟨hescape, c, rest ++ spell ps, ?_, hc⟩⟩)
      rw [List.nil_append, spell_cons, hchars]
      rfl

end Joins

end Cssom.Token
