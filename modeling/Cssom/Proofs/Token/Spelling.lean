import Cssom.Proofs.Token.Case
import Cssom.Proofs.Token.Scan
import Mathlib.Data.List.TakeWhile

/-!
# Pieces that are read back

Pieces put together are cut into themselves again if each of them is the first one of what is left
(`Lexes`, `pieces_of_lexes`). `Prints` says how the pieces of a source are printed: each token as it
was, after a blank, after an empty comment or, where nothing separated it from the one before, after
nothing. What is printed so is read back before any text that stands apart (`Prints.lexes`).
-/

namespace Cssom.Token

/-- A token without its place. -/
abbrev Piece := Kind × String

/-- The characters of some pieces. -/
def spell (ps : List Piece) : List Char :=
  (ps.map (·.2.toList)).flatten

@[simp] theorem spell_nil : spell [] = [] := rfl

@[simp] theorem spell_cons (p : Piece) (ps : List Piece) :
    spell (p :: ps) = p.2.toList ++ spell ps := rfl

@[simp] theorem spell_append (ps qs : List Piece) : spell (ps ++ qs) = spell ps ++ spell qs := by
  rw [spell, List.map_append, List.flatten_append]
  rfl

/-- Each of the pieces is the first one of what is left, if a text follows the last. -/
def Lexes : List Piece → List Char → Prop
  | [], _ => True
  | p :: ps, w => first (p.2.toList ++ (spell ps ++ w)) = (p.1, p.2.toList.length) ∧ Lexes ps w

variable {w : List Char}

/-- Two lists of pieces are read back just if both are, the first before the second. -/
theorem lexes_append {ps qs : List Piece} :
    Lexes (ps ++ qs) w ↔ Lexes ps (spell qs ++ w) ∧ Lexes qs w := by
  induction ps with
  | nil => exact ⟨fun h => ⟨trivial, h⟩, And.right⟩
  | cons p ps ih =>
    rw [List.cons_append, Lexes, Lexes, ih, spell_append, List.append_assoc, and_assoc]

/-- The first token of a text is not empty. -/
theorem ne_nil_of_first {t s : List Char} {k : Kind} (h : first (t ++ s) = (k, t.length)) :
    t ≠ [] := by
  have hpos := first_pos (t ++ s)
  rw [h] at hpos
  exact List.length_pos_iff.1 hpos

/-- A token of a kind with a single spelling is spelled so. -/
theorem eq_of_spelling {p : Piece} {ps : List Piece} (h : Lexes (p :: ps) w) {k : Kind}
    {spelling : String} (hk : p.1 = k) (hspelling : k.spelling? = some spelling) :
    p = (k, spelling) := by
  have hfirst := h.1
  rw [hk] at hfirst
  exact Prod.ext hk (String.toList_inj.1 (toList_of_spelling hfirst hspelling))

/-- What is cut from pieces that are read back is these pieces. -/
theorem pieces_of_lexes {ps : List Piece} (h : Lexes ps w) :
    pieces (spell ps ++ w) = ps ++ pieces w := by
  induction ps with
  | nil => rfl
  | cons p ps ih =>
    have hne := ne_nil_of_first h.1
    rw [spell_cons, List.append_assoc, pieces_of_ne_nil (List.append_ne_nil_of_left_ne_nil hne _),
      h.1, List.take_left, List.drop_left, ih h.2, String.ofList_toList]
    rfl

/-- The pieces of a text are read back and spell it. -/
theorem lexes_pieces (s : List Char) : Lexes (pieces s) [] ∧ spell (pieces s) = s := by
  have hspell : ∀ s, spell (pieces s) = s := flatten_pieces
  refine ⟨?_, hspell s⟩
  induction s using pieces_induct with
  | nil => trivial
  | cut s hs ih =>
    rw [pieces_of_ne_nil hs]
    refine ⟨?_, ih⟩
    have hlen : ∀ r, (first r).2 ≤ r.length ∨ r = [] := by
      intro r
      rcases first_cases r with ⟨form, hform, n, hmatch, h⟩ | h
      · left
        obtain ⟨b, hb, rfl⟩ := Pattern.length?_eq_some.1 hmatch
        have hsplit := (form.2.splits_of_mem_ends _ b (List.mem_of_head? hb)).length_eq
        rw [h]
        simp only at hsplit ⊢
        omega
      · rcases r with _ | ⟨c, r⟩
        · exact Or.inr rfl
        · left
          rw [h]
          simp
    have hle := (hlen s).resolve_right hs
    rw [String.toList_ofList, hspell, List.append_nil, List.take_append_drop, List.length_take,
      Nat.min_eq_left hle]

/-! ### The pieces of a source -/

/-- The pieces of a source without escapes, unfinished strings and blanks that do not separate. -/
structure Plain (ps : List Piece) : Prop where
  lexes : Lexes ps []
  slash : '\\' ∉ spell ps
  blanks : ∀ c ∈ spell ps, Text.isBlank c = true → isSpace c = true
  strings : ∀ p ∈ ps, p.1 ≠ .badString

namespace Plain

variable {ps qs : List Piece}

/-- The last pieces of a plain source are plain. -/
theorem of_append (h : Plain (ps ++ qs)) : Plain qs where
  lexes := (lexes_append.1 h.lexes).2
  slash hmem := h.slash (by rw [spell_append]; exact List.mem_append_right _ hmem)
  blanks c hc := h.blanks c (by rw [spell_append]; exact List.mem_append_right _ hc)
  strings p hp := h.strings p (List.mem_append_right _ hp)

/-- The pieces behind the first of a plain source are plain. -/
theorem tail {p : Piece} (h : Plain (p :: ps)) : Plain ps :=
  @of_append [p] ps h

/-- The first piece of a plain source is the first token of its text. -/
theorem first_eq {p : Piece} (h : Plain (p :: ps)) :
    first (p.2.toList ++ spell ps) = (p.1, p.2.toList.length) := by
  have hfirst := h.lexes.1
  rwa [List.append_nil] at hfirst

/-- The first piece of a plain source has no backslash. -/
theorem slash_head {p : Piece} (h : Plain (p :: ps)) : '\\' ∉ p.2.toList :=
  fun hmem => h.slash (List.mem_append_left _ hmem)

end Plain

/-! ### Quoted addresses -/

/-- The next token is a string, and nothing but blanks stands before it. -/
def OpensString (src : List Piece) : Prop :=
  ∃ lead t rest, src = lead ++ (.string, t) :: rest ∧ ∀ p ∈ lead, p.1 = .whitespace

/-- No significant token starts with a blank. -/
theorem not_space_of_first {c : Char} {s : List Char} {k : Kind} {n : Nat}
    (h : first (c :: s) = (k, n)) (hk : k.isSignificant = true) : isSpace c = false := by
  rw [Bool.eq_false_iff]
  intro hspace
  rw [first_space hspace, Prod.mk.injEq] at h
  rw [← h.1] at hk
  exact absurd hk (by decide)

/-- Behind the opening of an address that is none, of which more than blanks is left, stands a
quote. -/
theorem quoted_of_opening {t s : List Char} {k : Kind} (ho : IsOpening t)
    (h : first (t ++ s) = (k, t.length))
    (hblank : ∀ c ∈ s, Text.isBlank c = true → isSpace c = true)
    (hs : s.dropWhile isSpace ≠ []) : Quoted s := by
  obtain ⟨c, rest, hdrop⟩ := List.exists_cons_of_ne_nil hs
  have hurl := (kind_of_opening ho h).2
  have hsplit : s = s.takeWhile isSpace ++ c :: rest := by
    rw [← hdrop, List.takeWhile_append_dropWhile]
  have hspaces : ∀ d ∈ s.takeWhile isSpace, isSpace d = true :=
    fun d hd => List.all_eq_true.1 List.all_takeWhile d hd
  have hc : isSpace c = false := by
    have hhead := List.head?_dropWhile_not isSpace s
    rwa [hdrop] at hhead
  have hcblank : Text.isBlank c = false := by
    rw [Bool.eq_false_iff]
    intro hblank'
    have hmem : c ∈ s := by
      rw [hsplit]
      exact List.mem_append_right _ List.mem_cons_self
    rw [hblank c hmem hblank'] at hc
    exact absurd hc (by decide)
  refine ⟨c, rest, hdrop, ?_⟩
  by_contra hquote
  rw [hsplit] at hurl
  by_cases hclose : c = ')'
  · rw [hclose] at hurl
    exact @plainUrl_of_parts t _ [] [] ho hspaces (List.forall_mem_nil _) (List.forall_mem_nil _)
      rest hurl.1
  · refine spoiledUrl_blanks ho (fun d hd => isBlank_of_isSpace (hspaces d hd)) ?_ rest hurl.2
    rw [isQuote_iff, not_or] at hquote
    simp [hquote, hclose, hcblank]

/-- Where a quote stands first, or after blanks, the next token is a string. -/
theorem opensString_of_quoted {src : List Piece} (h : Plain src) (hq : Quoted (spell src)) :
    OpensString src := by
  have hstring : ∀ {p : Piece} {ps : List Piece} {q : Char} {rest : List Char}, Plain (p :: ps) →
      isQuote q = true → spell (p :: ps) = q :: rest → p.1 = .string := by
    intro p ps q rest hplain hquote hspell
    have hfirst := hplain.first_eq
    rw [← spell_cons, hspell] at hfirst
    have hkind := kind_first_quote hquote rest
    rw [hfirst] at hkind
    exact hkind.resolve_right (hplain.strings p List.mem_cons_self)
  obtain ⟨q, rest, hdrop, hquote⟩ := hq
  rcases src with _ | ⟨⟨k, t⟩, src⟩
  · exact absurd hdrop (by simp)
  obtain ⟨c, t', ht⟩ := List.exists_cons_of_ne_nil (ne_nil_of_first h.first_eq)
  simp only at ht
  rw [spell_cons, ht, List.cons_append, List.dropWhile_cons] at hdrop
  split at hdrop
  · next hc =>
    have hfirst := h.first_eq
    rw [ht, List.cons_append, first_space hc, Prod.mk.injEq, List.length_cons] at hfirst
    -- the blanks are one piece, so the quote starts the next one
    have hrun : (t' ++ spell src).takeWhile isSpace = t' := by
      refine (List.prefix_of_prefix_length_le (List.takeWhile_prefix _)
        (List.prefix_append t' (spell src)) (by omega)).eq_of_length (by omega)
    have hrest : spell src = q :: rest := by
      have hsplit := List.takeWhile_append_dropWhile (p := isSpace) (l := t' ++ spell src)
      rw [hrun, hdrop] at hsplit
      exact (List.append_cancel_left hsplit).symm
    rcases src with _ | ⟨p, src⟩
    · exact absurd hrest (by simp)
    · have hk := hstring h.tail hquote hrest
      refine ⟨[(k, t)], p.2, src, by rw [← hk]; rfl, ?_⟩
      intro p' hp'
      rw [List.mem_singleton.1 hp']
      exact hfirst.1.symm
  · have hk := @hstring _ _ _ rest h hquote (by rw [spell_cons, ht]; exact hdrop)
    exact ⟨[], t, src, by rw [← show k = .string from hk]; rfl,
      fun _ hp => absurd hp List.not_mem_nil⟩

/-- A significant token is no mere white space. -/
theorem exists_not_space {src : List Piece} (h : Plain src)
    (hsig : ∃ p ∈ src, p.1.isSignificant = true) : ∃ c ∈ spell src, isSpace c = false := by
  obtain ⟨p, hp, hsig⟩ := hsig
  obtain ⟨before, after, rfl⟩ := List.append_of_mem hp
  have hfirst := h.of_append.first_eq
  obtain ⟨c, rest, hc⟩ := List.exists_cons_of_ne_nil (ne_nil_of_first hfirst)
  rw [hc, List.cons_append] at hfirst
  refine ⟨c, ?_, not_space_of_first hfirst hsig⟩
  rw [spell_append, spell_cons, hc]
  exact List.mem_append_right _ (List.mem_append_left _ List.mem_cons_self)

/-- The opening of an address that is none has a string behind it, if any significant token. -/
theorem opensString_of_opening {k : Kind} {t : String} {src : List Piece}
    (h : Plain ((k, t) :: src)) (ho : IsOpening t.toList)
    (hsig : ∃ p ∈ src, p.1.isSignificant = true) : OpensString src := by
  refine opensString_of_quoted h.tail
    (quoted_of_opening ho h.first_eq (fun c hc => h.tail.blanks c hc) fun hnil => ?_)
  obtain ⟨c, hmem, hc⟩ := exists_not_space h.tail hsig
  rw [List.dropWhile_eq_nil_iff] at hnil
  rw [hnil c hmem] at hc
  exact Bool.noConfusion hc

/-- A string starts with its quote. -/
theorem quoted_of_string {t s : List Char} (h : first (t ++ s) = (.string, t.length)) :
    Quoted (t ++ s) ∧ Quoted (' ' :: (t ++ s)) := by
  obtain ⟨q, body, after, hq, _, hbody, _⟩ := string_of_first h
  have hspace : isSpace q = false := by
    rcases isQuote_iff.1 hq with rfl | rfl <;> decide
  have hdrop : (t ++ s).dropWhile isSpace = q :: (body ++ q :: after) := by
    rw [hbody, List.dropWhile_cons_of_neg (by rw [hspace]; decide)]
  refine ⟨⟨q, _, hdrop, hq⟩, q, body ++ q :: after, ?_, hq⟩
  rw [← hdrop]
  exact List.dropWhile_cons_of_pos (by decide)

/-! ### Printing the pieces of a source -/

/-- A single blank. -/
def blank : Piece := (.whitespace, " ")

/-- A comment that says nothing. -/
def emptyComment : Piece := (.comment, "/**/")

/-- What is printed before a token of some kind: nothing at the start; and elsewhere a blank, or
nothing if nothing stood there or before a comma, or an empty comment where only comments stood. -/
def Spaced (fresh : Bool) (lead : List Piece) (k : Kind) (sep : List Piece) : Prop :=
  (fresh = true ∧ sep = []) ∨ fresh = false ∧ (sep = [blank] ∨
    sep = [] ∧ (lead = [] ∨ k = .comma) ∨
      sep = [emptyComment] ∧ lead ≠ [] ∧ ∀ p ∈ lead, p.1 ≠ .whitespace)

/-- The second pieces are the first tokens of the first ones, printed with other spacing. Whoever
prints the name of a quoted address prints its string too, and an address only with its closing
parenthesis. -/
inductive Prints : Bool → List Piece → List Piece → Prop where
  | ends {fresh : Bool} {src : List Piece} (h : ¬ OpensString src) : Prints fresh src []
  | token {fresh : Bool} {lead src sep ps : List Piece} {k : Kind} {t : String}
      (hlead : ∀ p ∈ lead, p.1.isSignificant = false) (hk : k.isSignificant = true)
      (hsep : Spaced fresh lead k sep) (hspoiled : k = .badUrl → t.toList.getLast? = some ')')
      (hopen : IsOpening t.toList → ∃ p ∈ src, p.1.isSignificant = true)
      (more : Prints false src ps) : Prints fresh (lead ++ (k, t) :: src) (sep ++ (k, t) :: ps)

/-- A single blank before anything else is a token. -/
theorem first_blank {s : List Char} (h : ∀ c rest, s = c :: rest → isSpace c = false) :
    first (' ' :: s) = (.whitespace, 1) := by
  rw [first_space (by decide)]
  rcases s with _ | ⟨c, s⟩
  · rfl
  · rw [List.takeWhile_cons_of_neg (by rw [h c s rfl]; decide)]
    rfl

/-- A blank is read back before a significant token. -/
theorem lexes_blank {k : Kind} {t : String} {ps : List Piece} (hk : k.isSignificant = true)
    (h : Lexes ((k, t) :: ps) w) : Lexes (blank :: (k, t) :: ps) w := by
  refine ⟨first_blank fun c rest hcons => ?_, h⟩
  have hfirst := h.1
  have hspell : spell ((k, t) :: ps) ++ w = c :: rest := hcons
  rw [← List.append_assoc, ← spell_cons (k, t), hspell] at hfirst
  exact not_space_of_first hfirst hk

/-- An empty comment may stand before anything that is read back. -/
theorem lexes_emptyComment {ps : List Piece} (h : Lexes ps w) : Lexes (emptyComment :: ps) w :=
  ⟨rfl, h⟩

/-- The next significant token of some pieces is one only. -/
theorem significant_inj {lead lead' src src' : List Piece} {p p' : Piece}
    (hlead : ∀ q ∈ lead, q.1.isSignificant = false) (hp : p.1.isSignificant = true)
    (hlead' : ∀ q ∈ lead', q.1.isSignificant = false) (hp' : p'.1.isSignificant = true)
    (h : lead ++ p :: src = lead' ++ p' :: src') : lead = lead' ∧ p = p' ∧ src = src' := by
  have htake : ∀ (l : List Piece) (q : Piece) (r : List Piece),
      (∀ q ∈ l, q.1.isSignificant = false) → q.1.isSignificant = true →
      (l ++ q :: r).takeWhile (fun q => !q.1.isSignificant) = l := by
    intro l q r hl hq
    rw [List.takeWhile_append_of_pos, List.takeWhile_cons_of_neg (by simp [hq]), List.append_nil]
    exact fun q hmem => by simp [hl q hmem]
  have hsame : lead = lead' := by
    rw [← htake lead p src hlead hp, h, htake lead' p' src' hlead' hp']
  rw [hsame, List.append_cancel_left_eq, List.cons.injEq] at h
  exact ⟨hsame, h.1, h.2⟩

/-- White space is trivia. -/
theorem trivia_of_whitespace {lead : List Piece} (h : ∀ p ∈ lead, p.1 = .whitespace) :
    ∀ p ∈ lead, p.1.isSignificant = false := by
  intro p hp
  rw [h p hp]
  rfl

/-- What is printed of a source is read back before a text that stands apart, agrees with the source
until it stands apart itself, and is quoted where the source opens a string. -/
theorem Prints.follow {fresh : Bool} {src ps : List Piece} (h : Prints fresh src ps)
    (hplain : Plain src) (hw : Apart w) :
    Lexes ps w ∧ (fresh = false → Agrees (spell src) (spell ps ++ w)) ∧
      (OpensString src → Quoted (spell ps ++ w)) := by
  induction h with
  | ends hends => exact ⟨trivial, fun _ => .of_apart hw, fun hopens => absurd hopens hends⟩
  | @token fresh lead src sep ps k t hlead hk hsep hspoiled hopen more ih =>
    have htoken := hplain.of_append
    obtain ⟨hlexes, hagrees, hquoted⟩ := ih htoken.tail
    have hbad : k ≠ .badString := htoken.strings (k, t) List.mem_cons_self
    have hslash : '\\' ∉ t.toList := htoken.slash_head
    have hquote : IsOpening t.toList → Quoted (spell ps ++ w) :=
      fun ho => hquoted (opensString_of_opening htoken ho (hopen ho))
    have hfirst : first (t.toList ++ (spell ps ++ w)) = (k, t.toList.length) :=
      first_follow htoken.first_eq (.of_not_mem hslash) hk hbad hspoiled
        (fun ho => (hquote ho).shut) (hagrees rfl)
    have hhere : Lexes ((k, t) :: ps) w := ⟨hfirst, hlexes⟩
    refine ⟨?_, ?_, ?_⟩
    · rcases hsep with ⟨_, rfl⟩ | ⟨_, rfl | ⟨rfl, _⟩ | ⟨rfl, _⟩⟩
      · exact hhere
      · exact lexes_blank hk hhere
      · exact hhere
      · exact lexes_emptyComment hhere
    · intro hfresh
      rcases hsep with ⟨hfresh', _⟩ | ⟨_, rfl | ⟨rfl, rfl | rfl⟩ | ⟨rfl, _⟩⟩
      · rw [hfresh] at hfresh'
        exact absurd hfresh' (by decide)
      · exact .of_apart (Or.inr (Or.inl ⟨' ', _, rfl, by decide⟩))
      · have happend := (hagrees rfl).append (.of_not_mem hslash)
        simpa using happend
      · have hcomma := toList_of_spelling htoken.first_eq rfl
        refine .of_apart (Or.inr (Or.inl ⟨',', spell ps ++ w, ?_, by decide⟩))
        rw [List.nil_append, spell_cons, show ((Kind.comma, t) : Piece).2 = t from rfl, hcomma]
        simp
      · exact .of_apart (Or.inr (Or.inr ⟨_, rfl⟩))
    · rintro ⟨lead', t', rest, hsplit, hblanks⟩
      obtain ⟨rfl, htoken', _⟩ := significant_inj hlead (by exact hk)
        (trivia_of_whitespace hblanks) rfl hsplit
      rw [Prod.mk.injEq] at htoken'
      obtain ⟨rfl, rfl⟩ := htoken'
      obtain ⟨hhere, hblank⟩ := quoted_of_string hfirst
      rcases hsep with ⟨_, rfl⟩ | ⟨_, rfl | ⟨rfl, _⟩ | ⟨rfl, hne, hnone⟩⟩
      · simpa using hhere
      · simpa [blank] using hblank
      · simpa using hhere
      · exfalso
        obtain ⟨p, lead, rfl⟩ := List.exists_cons_of_ne_nil hne
        exact hnone p List.mem_cons_self (hblanks p List.mem_cons_self)

end Cssom.Token
