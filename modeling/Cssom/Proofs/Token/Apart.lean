import Cssom.Proofs.Token.Special

/-!
# Where tokens end whatever follows

A token that a text starts with stays the first one when what follows it is changed, as long as the
change begins at a character that ends tokens (`first_follow`). Of the tokens that may hold such
characters, a string and an address end by themselves; and the name of an address that is quoted
must be followed by its quote.
-/

namespace Cssom.Token

open Pattern

variable {w : List Char}

/-! ### Characters between tokens -/

/-- Characters that only strings, addresses, comments and white space go on with. -/
def breaks : List Char :=
  [' ', '\t', '\r', '\n', '\x0c', ',', ':', ';', ')', '/']

/-- A character that any token may go on with. -/
def GoesOn (c : Char) : Prop :=
  c ∉ breaks

/-- A test that no break and no backslash passes takes only what any token goes on with. -/
theorem only_one {accepts : Char → Bool} (h : ('\\' :: breaks).any accepts = false) :
    Only GoesOn (one accepts) := by
  have hnone := List.any_eq_false.1 h
  refine .one fun c hc => ⟨?_, fun hmem => hnone c (List.mem_cons_of_mem _ hmem) hc⟩
  rintro rfl
  exact hnone _ List.mem_cons_self hc

/-- A fixed text without breaks and backslashes takes only what any token goes on with. -/
theorem only_literal {text : String}
    (h : text.toList.any ('\\' :: breaks).contains = false) : Only GoesOn (literal text) := by
  have hnone : ∀ c ∈ text.toList, c ∉ '\\' :: breaks := fun c hc hmem =>
    List.any_eq_false.1 h c hc (List.contains_iff_mem.2 hmem)
  exact .literal fun c hc =>
    ⟨fun heq => hnone c hc (heq ▸ List.mem_cons_self), fun hmem =>
      hnone c hc (List.mem_cons_of_mem _ hmem)⟩

/-! ### The forms that see no break -/

/-- Characters beyond ASCII are no breaks. -/
theorem only_beyondAscii : Only GoesOn (one isBeyondAscii) := only_one (by decide)

/-- A name starts with no break. -/
theorem only_nameStart : Only GoesOn nameStart :=
  (only_one (by decide)).alt (only_beyondAscii.alt .escaped)

/-- A name goes on with no break. -/
theorem only_nameChar : Only GoesOn nameChar :=
  (only_one (by decide)).alt (only_beyondAscii.alt .escaped)

/-- An identifier holds no break. -/
theorem only_identifier : Only GoesOn identifier :=
  ((only_literal (by decide)).alt ((only_one (by decide)).opt.seq only_nameStart)).seq
    (only_nameChar.many rfl)

/-- Digits are no breaks. -/
theorem only_digits : Only GoesOn (oneOrMore digit) :=
  (only_one (by decide)).oneOrMore rfl

/-- A sign is no break. -/
theorem only_sign : Only GoesOn (opt sign) := (only_one (by decide)).opt

/-- A number holds no break. -/
theorem only_numeral : Only GoesOn numeral :=
  only_sign.seq <|
    ((((only_one (by decide)).many rfl).seq ((only_one (by decide)).seq only_digits)).alt
      only_digits).seq ((only_one (by decide)).seq (only_sign.seq only_digits)).opt

/-- A pattern that takes no break takes none when it is repeated up to six times. -/
theorem only_upToSix {p : Pattern} (h : Only GoesOn p) : Only GoesOn (upToSix p) :=
  h.seq (h.upTo 5)

/-- A range of code points holds no break. -/
theorem only_codeRange : Only GoesOn codeRange :=
  (only_one (by decide)).seq <| (only_one (by decide)).seq <|
    (only_upToSix (only_one (by decide))).seq
      ((only_one (by decide)).seq (only_upToSix (only_one (by decide)))).opt

/-- The kinds of tokens that hold characters that end others. -/
def holdsBreaks : Kind → Bool
  | .comment | .whitespace | .url | .badUrl | .string | .badString => true
  | _ => false

/-- Every other form sees no break, or is a single character. -/
theorem only_of_mem_forms : ∀ form ∈ forms, holdsBreaks form.1 = false →
    form.2.isLocal = true ∧ (Only GoesOn form.2 ∨ ∃ c, c ≠ '\\' ∧ form.2 = char c) := by
  have hsingle : ∀ c, c ≠ '\\' → (char c).isLocal = true ∧
      (Only GoesOn (char c) ∨ ∃ d, d ≠ '\\' ∧ char c = char d) :=
    fun c hc => ⟨rfl, Or.inr ⟨c, hc, rfl⟩⟩
  simp only [forms, List.forall_mem_cons]
  refine ⟨fun h => absurd h (by decide), fun h => absurd h (by decide),
    fun _ => ⟨rfl, Or.inl (only_literal (by decide))⟩,
    fun _ => ⟨rfl, Or.inl (only_literal (by decide))⟩,
    fun h => absurd h (by decide), fun h => absurd h (by decide),
    fun _ => ⟨rfl, Or.inl only_codeRange⟩,
    fun _ => ⟨rfl, Or.inl (only_numeral.seq only_identifier)⟩,
    fun _ => ⟨rfl, Or.inl (only_numeral.seq (only_one (by decide)))⟩,
    fun _ => ⟨rfl, Or.inl only_numeral⟩,
    fun _ => ⟨rfl, Or.inl (only_identifier.seq (only_one (by decide)))⟩,
    fun _ => ⟨rfl, Or.inl only_identifier⟩,
    fun _ => ⟨rfl, Or.inl ((only_one (by decide)).seq only_identifier)⟩,
    fun _ => ⟨rfl, Or.inl ((only_one (by decide)).seq (only_nameChar.oneOrMore rfl))⟩,
    fun h => absurd h (by decide), fun h => absurd h (by decide), ?_⟩
  have hpair : ∀ text : String, text.toList.any ('\\' :: breaks).contains = false →
      (literal text).isLocal = true → (literal text).isLocal = true ∧
        (Only GoesOn (literal text) ∨ ∃ c, c ≠ '\\' ∧ literal text = char c) :=
    fun _ h hlocal => ⟨hlocal, Or.inl (only_literal h)⟩
  exact ⟨fun _ => hpair _ (by decide) rfl, fun _ => hpair _ (by decide) rfl,
    fun _ => hpair _ (by decide) rfl, fun _ => hpair _ (by decide) rfl,
    fun _ => hpair _ (by decide) rfl, fun _ => hpair _ (by decide) rfl,
    fun _ => hsingle ':' (by decide), fun _ => hsingle ';' (by decide),
    fun _ => hsingle ',' (by decide), fun _ => hsingle '[' (by decide),
    fun _ => hsingle ']' (by decide), fun _ => hsingle '(' (by decide),
    fun _ => hsingle ')' (by decide), fun _ => hsingle '\x7b' (by decide),
    fun _ => hsingle '\x7d' (by decide), fun _ hform => absurd hform List.not_mem_nil⟩

/-! ### Texts that stand apart -/

/-- No text, or one that starts with a blank, a mark between parts or a comment: what a token may
stand before in the normal spelling. -/
def Apart (w : List Char) : Prop :=
  w = [] ∨ (∃ c rest, w = c :: rest ∧ c ∈ [' ', '\n', ',', ':', ';', ')']) ∨
    ∃ rest, w = '/' :: '*' :: rest

/-- A text that stands apart is empty or starts with a break. -/
theorem Apart.head (h : Apart w) : w = [] ∨ ∃ c rest, w = c :: rest ∧ c ∈ breaks := by
  rcases h with rfl | ⟨c, rest, rfl, hc⟩ | ⟨rest, rfl⟩
  · exact Or.inl rfl
  · have hall : ∀ c ∈ [' ', '\n', ',', ':', ';', ')'], c ∈ breaks := by simp [breaks]
    exact Or.inr ⟨c, rest, rfl, hall c hc⟩
  · exact Or.inr ⟨'/', _, rfl, by decide⟩

/-- A break is no backslash. -/
theorem slash_not_mem_breaks {c : Char} (h : c ∈ breaks) : c ≠ '\\' := by
  rintro rfl
  exact absurd h (by decide)

/-- Before a text that stands apart, a form that holds no breaks matches as if nothing followed. -/
theorem length?_append_apart {form : Kind × Pattern} (hform : form ∈ forms)
    (hk : holdsBreaks form.1 = false) {x w : List Char} (hx : x ≠ [])
    (hsettled : Settled (fun _ => True) x) (hw : Apart w) :
    form.2.length? (x ++ w) = form.2.length? x := by
  obtain ⟨hlocal, hsees⟩ := only_of_mem_forms form hform hk
  rcases hw.head with rfl | ⟨c, rest, rfl, hc⟩
  · rw [List.append_nil]
  · apply length?_append_of_within hlocal
    rcases hsees with honly | ⟨d, _, hone⟩
    · intro b hb
      have hle := honly.within (not_not_intro hc) (slash_not_mem_breaks hc) hsettled b hb
      omega
    · intro b hb
      rw [hone] at hb
      obtain ⟨_, _, _, hn⟩ := mem_one hb
      have := List.length_pos_iff.2 hx
      omega

/-! ### Forms that hold breaks -/

/-- Characters that the beginning of a comment or of an address may go on with. -/
def opens : List Char :=
  ['*', 'u', 'U', 'r', 'R', 'l', 'L', '(']

/-- A text that stands apart starts with nothing that opens a comment or an address. -/
theorem Apart.not_opens (h : Apart w) : ∀ c ∈ w.head?, c ∉ opens := by
  rcases h.head with rfl | ⟨c, rest, rfl, hc⟩
  · exact fun c hc => absurd hc (by simp)
  · have hall : ∀ c ∈ breaks, c ∉ opens := by simp [breaks, opens]
    exact fun d hd => Option.some.inj hd ▸ hall c hc

/-- A comment that opens in two texts put together opens in the first, if the second cannot open
one. -/
theorem prefix_comment_of_append {x : List Char} (hx : x ≠ []) (hw : ∀ c ∈ w.head?, c ∉ opens)
    (h : ['/', '*'] <+: x ++ w) : ['/', '*'] <+: x := by
  obtain ⟨rest, hrest⟩ := h
  rcases x with _ | ⟨c, _ | ⟨d, x⟩⟩
  · exact absurd rfl hx
  · have hstar : w = '*' :: rest := (List.cons.inj hrest).2.symm
    exact absurd (by decide : '*' ∈ opens) (hw '*' (by rw [hstar]; rfl))
  · simp only [List.cons_append, List.nil_append, List.cons.injEq] at hrest
    exact ⟨x, by rw [hrest.1, hrest.2.1]; rfl⟩

/-- The opening of an address has four characters. -/
theorem IsOpening.length_eq {o : List Char} (h : IsOpening o) : o.length = 4 := by
  obtain ⟨u, r, l, rfl, _⟩ := h
  rfl

/-- The opening of an address holds a parenthesis. -/
theorem IsOpening.mem {o : List Char} (h : IsOpening o) : '(' ∈ o := by
  obtain ⟨u, r, l, rfl, _⟩ := h
  simp

/-- The parenthesis that opens an address is the first one. -/
theorem IsOpening.eq_concat {o : List Char} (h : IsOpening o) :
    ∃ name, o = name ++ ['('] ∧ '(' ∉ name := by
  obtain ⟨u, r, l, rfl, hu, hr, hl⟩ := h
  refine ⟨[u, r, l], rfl, ?_⟩
  simp only [List.mem_cons, List.not_mem_nil, or_false] at hu hr hl
  rcases hu with rfl | rfl <;> rcases hr with rfl | rfl <;> rcases hl with rfl | rfl <;> decide

/-- The opening of an address reaches into no text that does not go on with it. -/
theorem IsOpening.prefix_of_append {o x : List Char} (ho : IsOpening o)
    (hw : ∀ c ∈ w.head?, c ∉ opens) (h : o <+: x ++ w) : o <+: x := by
  by_cases hlen : o.length ≤ x.length
  · exact List.prefix_of_prefix_length_le h (List.prefix_append x w) hlen
  · exfalso
    have hxo : x <+: o :=
      List.prefix_of_prefix_length_le (List.prefix_append x w) h (by omega)
    obtain ⟨more, rfl⟩ := hxo
    have hmore : more ≠ [] := by
      rintro rfl
      simp at hlen
    obtain ⟨e, more, rfl⟩ := List.exists_cons_of_ne_nil hmore
    obtain ⟨rest, rfl⟩ : e :: more <+: w := (List.prefix_append_right_inj x).1 h
    refine hw e rfl ?_
    obtain ⟨u, r, l, hsplit, hu, hr, hl⟩ := ho
    have hmem : e ∈ [u, r, l, '('] := hsplit ▸ by simp
    simp only [List.mem_cons, List.not_mem_nil, or_false, opens] at hmem hu hr hl ⊢
    rcases hmem with rfl | rfl | rfl | rfl
    · rcases hu with rfl | rfl <;> simp
    · rcases hr with rfl | rfl <;> simp
    · rcases hl with rfl | rfl <;> simp
    · simp

/-- No address stands behind its opening: the opening is the name of a function. -/
def Shut (s : List Char) : Prop :=
  ∀ o, IsOpening o → plainUrl.length? (o ++ s) = none ∧ spoiledUrl.length? (o ++ s) = none

/-- A quote stands first, or first after blanks. -/
def Quoted (s : List Char) : Prop :=
  ∃ q rest, s.dropWhile isSpace = q :: rest ∧ isQuote q = true

/-- An address that is quoted is none of the plain ones. -/
theorem plainUrl_quoted {o s : List Char} (ho : IsOpening o) (hs : Quoted s) :
    plainUrl.length? (o ++ s) = none := by
  rw [length?_eq_none, List.eq_nil_iff_forall_not_mem]
  intro b hb
  obtain ⟨o', before, inner, after, ho', hbefore, hinner, hafter, hsplit, _⟩ := address_of_mem hb
  obtain ⟨rfl, rfl⟩ := List.append_inj hsplit (by rw [ho.length_eq, ho'.length_eq])
  obtain ⟨q, rest, hq, hquote⟩ := hs
  rw [List.dropWhile_append_of_pos hbefore] at hq
  rcases inner with _ | ⟨c, inner⟩
  · rw [List.nil_append, List.dropWhile_append_of_pos hafter] at hq
    have hclose : q = ')' := (List.cons.inj hq).1.symm
    rw [hclose] at hquote
    exact absurd hquote (by decide)
  · have hc := hinner c List.mem_cons_self
    have hspace : isSpace c = false := by
      rw [Bool.eq_false_iff]
      intro hspace
      have hall : ∀ c ∈ [' ', '\t', '\r', '\n', '\x0c'],
          "\"'()\\ \t\r\n\x0c".toList.contains c = true := List.all_eq_true.1 (by decide)
      rw [hall c (mem_spaces hspace)] at hc
      exact absurd hc (by decide)
    rw [List.cons_append, List.dropWhile_cons_of_neg (by rw [hspace]; decide)] at hq
    rw [(List.cons.inj hq).1] at hc
    rcases isQuote_iff.1 hquote with rfl | rfl <;> exact absurd hc (by decide)

/-- An address that is quoted is no spoiled one. -/
theorem spoiledUrl_quoted {o s : List Char} (ho : IsOpening o) (hs : Quoted s) :
    spoiledUrl.length? (o ++ s) = none := by
  rw [length?_eq_none, List.eq_nil_iff_forall_not_mem]
  intro b hb
  obtain ⟨o', before, c, inner, close, ho', hbefore, hc, _, _, hsplit, _⟩ := spoiled_of_mem hb
  obtain ⟨rfl, rfl⟩ := List.append_inj hsplit (by rw [ho.length_eq, ho'.length_eq])
  obtain ⟨q, rest, hq, hquote⟩ := hs
  rw [Bool.or_eq_false_iff] at hc
  have hblank : Text.isBlank q = false := by
    rcases isQuote_iff.1 hquote with rfl | rfl <;> decide
  have hdrop := congrArg (List.dropWhile Text.isBlank) hq
  rw [List.dropWhile_cons_of_neg (by rw [hblank]; decide)] at hdrop
  have hspaces : ∀ t : List Char,
      (t.dropWhile isSpace).dropWhile Text.isBlank = t.dropWhile Text.isBlank := by
    intro t
    induction t with
    | nil => rfl
    | cons d t ih =>
      rw [List.dropWhile_cons]
      split
      · next hd => rw [ih, List.dropWhile_cons_of_pos (isBlank_of_isSpace hd)]
      · rfl
  rw [hspaces, List.dropWhile_append_of_pos hbefore,
    List.dropWhile_cons_of_neg (by rw [hc.2]; decide)] at hdrop
  have hcq : c = q := (List.cons.inj hdrop).1
  rw [hcq] at hc
  rcases isQuote_iff.1 hquote with rfl | rfl <;> exact absurd hc.1 (by decide)

/-- No address stands before a quote. -/
theorem Quoted.shut {s : List Char} (h : Quoted s) : Shut s :=
  fun _ ho => ⟨plainUrl_quoted ho h, spoiledUrl_quoted ho h⟩

/-- Without its opening there is no address. -/
theorem url_none_of_no_opening {s : List Char} (h : ∀ o, IsOpening o → ¬ o <+: s) :
    plainUrl.length? s = none ∧ spoiledUrl.length? s = none := by
  constructor
  · rw [length?_eq_none, List.eq_nil_iff_forall_not_mem]
    intro b hb
    obtain ⟨o, before, inner, after, ho, _, _, _, hsplit, _⟩ := address_of_mem hb
    exact h o ho ⟨_, hsplit.symm⟩
  · rw [length?_eq_none, List.eq_nil_iff_forall_not_mem]
    intro b hb
    obtain ⟨o, before, c, inner, close, ho, _, _, _, _, hsplit, _⟩ := spoiled_of_mem hb
    exact h o ho ⟨_, hsplit.symm⟩

/-- Behind the opening of an address stands an address, or the opening is the name of a function. -/
theorem first_opening {o : List Char} (ho : IsOpening o) (s : List Char) :
    first (o ++ s) =
      match plainUrl.length? (o ++ s) with
      | some n => (.url, n)
      | none =>
        match spoiledUrl.length? (o ++ s) with
        | some n => (.badUrl, n)
        | none => (.function, 4) := by
  obtain ⟨u, r, l, rfl, hu, hr, hl⟩ := ho
  have hskip : first ([u, r, l, '('] ++ s) = firstFrom (forms.drop 4) ([u, r, l, '('] ++ s) := by
    simp only [List.mem_cons, List.not_mem_nil, or_false] at hu
    rcases hu with rfl | rfl <;> rfl
  have hfunction : firstFrom (forms.drop 6) ([u, r, l, '('] ++ s) = (.function, 4) := by
    simp only [List.mem_cons, List.not_mem_nil, or_false] at hu hr hl
    rcases hu with rfl | rfl <;> rcases hr with rfl | rfl <;> rcases hl with rfl | rfl <;> rfl
  have hforms := firstFrom_cons (.url, plainUrl) ((.badUrl, spoiledUrl) :: forms.drop 6)
    ([u, r, l, '('] ++ s)
  rw [firstFrom_cons (.badUrl, spoiledUrl), hfunction] at hforms
  exact hskip.trans hforms

/-! ### The first token and what follows it -/

/-- What opens an address and is a token by itself is the name of a quoted one. -/
theorem kind_of_opening {t s : List Char} {k : Kind} (ho : IsOpening t)
    (h : first (t ++ s) = (k, t.length)) :
    k = .function ∧ plainUrl.length? (t ++ s) = none ∧ spoiledUrl.length? (t ++ s) = none := by
  have hlen := ho.length_eq
  rw [first_opening ho] at h
  split at h
  · next n hmatch =>
    obtain ⟨b, hb, hn⟩ := length?_eq_some.1 hmatch
    obtain ⟨o, _, _, _, ho', _, _, _, _, hlength⟩ := address_of_mem (List.mem_of_head? hb)
    have hsame : n = t.length := congrArg Prod.snd h
    have := ho'.length_eq
    omega
  · next hplain =>
    split at h
    · next n hmatch =>
      obtain ⟨b, hb, hn⟩ := length?_eq_some.1 hmatch
      obtain ⟨o, _, _, _, _, ho', _, _, _, _, _, hlength⟩ := spoiled_of_mem (List.mem_of_head? hb)
      have hsame : n = t.length := congrArg Prod.snd h
      have := ho'.length_eq
      omega
    · next hspoiled => exact ⟨(congrArg Prod.fst h).symm, hplain, hspoiled⟩

/-- A form that may hold breaks is that of a comment, of white space, of an address or of a
string. -/
theorem pattern_of_holdsBreaks : ∀ form ∈ forms, holdsBreaks form.1 = true →
    form = (.comment, commentForm) ∨ form = (.whitespace, oneOrMore space) ∨
      form = (.url, plainUrl) ∨ form = (.badUrl, spoiledUrl) ∨
      form = (.string, alt (closedString '"') (closedString '\'')) ∨
      form = (.badString, alt (openString '"') (openString '\'')) := by
  simp [forms, holdsBreaks]

/-- A text whose first token holds no breaks starts neither with a comment, nor with a blank, nor
with a quote; and if it starts with the opening of an address, that is the whole token. -/
theorem start_of_first {c : Char} {s : List Char} {k : Kind} {n : Nat}
    (h : first (c :: s) = (k, n)) (hk : holdsBreaks k = false) :
    ¬ ['/', '*'] <+: c :: s ∧ isSpace c = false ∧ isQuote c = false ∧
      ∀ o, IsOpening o → o <+: c :: s → k = .function ∧ n = 4 := by
  refine ⟨?_, ?_, ?_, ?_⟩
  · rintro ⟨rest, hrest⟩
    have hkind := first_comment rest
    rw [show '/' :: '*' :: rest = c :: s from hrest, h] at hkind
    rw [show k = .comment from hkind] at hk
    exact absurd hk (by decide)
  · rw [Bool.eq_false_iff]
    intro hspace
    rw [first_space hspace, Prod.mk.injEq] at h
    rw [← h.1] at hk
    exact absurd hk (by decide)
  · rw [Bool.eq_false_iff]
    intro hquote
    have hkind := kind_first_quote hquote s
    rw [h] at hkind
    rcases hkind with hkind | hkind
    · rw [show k = .string from hkind] at hk
      exact absurd hk (by decide)
    · rw [show k = .badString from hkind] at hk
      exact absurd hk (by decide)
  · rintro o ho ⟨rest, hrest⟩
    rw [← hrest, first_opening ho] at h
    split at h
    · rw [Prod.mk.injEq] at h
      rw [← h.1] at hk
      exact absurd hk (by decide)
    · split at h
      · rw [Prod.mk.injEq] at h
        rw [← h.1] at hk
        exact absurd hk (by decide)
      · rw [Prod.mk.injEq] at h
        exact ⟨h.1.symm, h.2.symm⟩

/-- A token without breaks that starts with the opening of an address is no more than that. -/
theorem opening_of_first {t u r o v : List Char} {k : Kind}
    (h : first (t ++ u ++ r) = (k, t.length)) (hne : t ≠ []) (hk : holdsBreaks k = false)
    (ho : IsOpening o) (hsplit : t ++ u = o ++ v) : t = o ∧ u = v := by
  obtain ⟨c, rest, hcons⟩ := List.exists_cons_of_ne_nil (List.append_ne_nil_of_left_ne_nil hne u)
  have hstart := start_of_first (c := c) (s := rest ++ r) (by rwa [← List.cons_append, ← hcons]) hk
  have hfour := hstart.2.2.2 o ho (by
    rw [← List.cons_append, ← hcons, hsplit, List.append_assoc]
    exact List.prefix_append _ _)
  exact List.append_inj hsplit (by rw [hfour.2, ho.length_eq])

/-- Forms that hold breaks do not match where a token that holds none stood. -/
theorem holdsBreaks_eq_none {c : Char} {s : List Char}
    (hcomment : ¬ ['/', '*'] <+: c :: s) (hspace : isSpace c = false) (hquote : isQuote c = false)
    (hurl : plainUrl.length? (c :: s) = none ∧ spoiledUrl.length? (c :: s) = none) :
    ∀ form ∈ forms, holdsBreaks form.1 = true → form.2.length? (c :: s) = none := by
  have hne : c ≠ '"' ∧ c ≠ '\'' := by
    constructor
    · rintro rfl
      exact absurd hquote (by decide)
    · rintro rfl
      exact absurd hquote (by decide)
  intro form hform hk
  rcases pattern_of_holdsBreaks form hform hk with rfl | rfl | rfl | rfl | rfl | rfl
  · exact commentForm_eq_none hcomment
  · exact whitespace_eq_none hspace s
  · exact hurl.1
  · exact hurl.2
  · rw [length?_eq_none]
    simp [closedString, char, ends, hne]
  · rw [length?_eq_none]
    simp [openString, char, ends, hne]

/-- A token that holds no breaks stays the first one, with all that was glued to it, before any text
that no form without breaks goes on into, and that neither an opening nor a comment reaches into. -/
theorem first_append_of {x r : List Char} {k : Kind} {n : Nat} (h : first (x ++ r) = (k, n))
    (hn : n ≤ x.length) (hx : x ≠ []) (hk : holdsBreaks k = false)
    (hplain : ∀ form ∈ forms, holdsBreaks form.1 = false →
      form.2.length? (x ++ w) = form.2.length? x)
    (hslash : ['/', '*'] <+: x ++ w → ['/', '*'] <+: x)
    (hwithin : ∀ o, IsOpening o → o <+: x ++ w → o <+: x)
    (hopen : ∀ o u, IsOpening o → x = o ++ u → Shut (u ++ w)) : first (x ++ w) = (k, n) := by
  obtain ⟨c, x', rfl⟩ := List.exists_cons_of_ne_nil hx
  obtain ⟨hcomment, hspace, hquote, _⟩ := start_of_first (by simpa using h) hk
  have hurl : plainUrl.length? (c :: x' ++ w) = none ∧
      spoiledUrl.length? (c :: x' ++ w) = none := by
    by_cases ho : ∃ o, IsOpening o ∧ o <+: c :: x' ++ w
    · obtain ⟨o, ho, hstarts⟩ := ho
      obtain ⟨u, hu⟩ := hwithin o ho hstarts
      rw [← hu, List.append_assoc]
      exact hopen o u ho hu.symm o ho
    · exact url_none_of_no_opening fun o hopening hstarts => ho ⟨o, hopening, hstarts⟩
  have hcomment' : ¬ ['/', '*'] <+: c :: x' ++ w := fun hstarts =>
    hcomment ((hslash hstarts).trans (List.prefix_append _ _))
  have hspecial := holdsBreaks_eq_none hcomment' hspace hquote hurl
  have hnone : ∀ form ∈ forms, form.2.length? (c :: x' ++ r) = none →
      form.2.length? (c :: x' ++ w) = none := by
    intro form hform hmatch
    cases hholds : holdsBreaks form.1 with
    | true => exact hspecial form hform hholds
    | false =>
      rw [hplain form hform hholds]
      exact length?_of_append_none (only_of_mem_forms form hform hholds).1 hmatch
  rcases form_of_first h with ⟨before, p, after, htable, hmatch, hbefore⟩ | ⟨hall, rfl, rfl⟩
  · have hmem : ∀ form ∈ before, form ∈ forms := fun form hform => by
      rw [htable]
      exact List.mem_append_left _ hform
    have hform : (k, p) ∈ forms := by
      rw [htable]
      exact List.mem_append_right _ List.mem_cons_self
    apply first_of_form htable
    · rw [hplain (k, p) hform hk]
      exact length?_of_append (only_of_mem_forms (k, p) hform hk).1 hmatch hn
    · exact fun form hbe => hnone form (hmem form hbe) (hbefore form hbe)
  · exact first_of_none fun form hform => hnone form hform (hall form hform)

/-- A token that holds no breaks stays the first one before any text that stands apart. -/
theorem first_append_apart {x r : List Char} {k : Kind} {n : Nat} (h : first (x ++ r) = (k, n))
    (hn : n ≤ x.length) (hx : x ≠ []) (hsettled : Settled (fun _ => True) x)
    (hk : holdsBreaks k = false) (hw : Apart w)
    (hopen : ∀ o u, IsOpening o → x = o ++ u → Shut (u ++ w)) : first (x ++ w) = (k, n) :=
  first_append_of h hn hx hk
    (fun _ hform hfalse => length?_append_apart hform hfalse hx hsettled hw)
    (prefix_comment_of_append hx hw.not_opens) (fun _ ho => ho.prefix_of_append hw.not_opens) hopen

/-! ### Tokens that end by themselves -/

/-- A string is the first token before any text. -/
theorem first_string_append {t s : List Char} (h : first (t ++ s) = (.string, t.length))
    (s' : List Char) : first (t ++ s') = (.string, t.length) := by
  obtain ⟨q, body, hq, hbody, ht⟩ := quotes_of_first h
  have hfirst := first_string hq hbody s'
  rw [ht, List.cons_append, List.append_assoc, List.singleton_append, hfirst]
  simp

/-- What stands before the first closing parenthesis. -/
theorem append_close_inj {a a' r r' : List Char} (ha : ')' ∉ a) (ha' : ')' ∉ a')
    (h : a ++ ')' :: r = a' ++ ')' :: r') : a = a' := by
  have htake : ∀ b t : List Char, ')' ∉ b → (b ++ ')' :: t).takeWhile (· != ')') = b := by
    intro b t hb
    rw [List.takeWhile_append_of_pos, List.takeWhile_cons_of_neg (by simp), List.append_nil]
    exact fun c hc => bne_iff_ne.2 fun hclose => hb (hclose ▸ hc)
  rw [← htake a r ha, h, htake a' r' ha']

/-- An address holds no closing parenthesis before its own. -/
theorem close_not_mem_address {o before inner after : List Char} (ho : IsOpening o)
    (hbefore : ∀ c ∈ before, isSpace c = true)
    (hinner : ∀ c ∈ inner, "\"'()\\ \t\r\n\x0c".toList.contains c = false)
    (hafter : ∀ c ∈ after, isSpace c = true) : ')' ∉ o ++ (before ++ (inner ++ after)) := by
  simp only [List.mem_append, not_or]
  refine ⟨?_, fun h => ?_, fun h => ?_, fun h => ?_⟩
  · obtain ⟨u, r, l, rfl, hu, hr, hl⟩ := ho
    simp only [List.mem_cons, List.not_mem_nil, or_false] at hu hr hl ⊢
    rintro (rfl | rfl | rfl | h)
    · exact absurd hu (by decide)
    · exact absurd hr (by decide)
    · exact absurd hl (by decide)
    · exact absurd h (by decide)
  · exact absurd (hbefore _ h) (by decide)
  · exact absurd (hinner _ h) (by decide)
  · exact absurd (hafter _ h) (by decide)

/-- Addresses end at the first closing parenthesis. -/
theorem plainUrl_within {a s : List Char} (ha : ')' ∉ a) :
    ∀ b ∈ plainUrl.ends (0, a ++ [')'] ++ s), b.1 = (a ++ [')']).length := by
  intro b hb
  obtain ⟨o, before, inner, after, ho, hbefore, hinner, hafter, hsplit, hlength⟩ :=
    address_of_mem hb
  have hclose := close_not_mem_address ho hbefore hinner hafter
  have heq : a = o ++ (before ++ (inner ++ after)) := by
    apply append_close_inj ha hclose (r := s)
    simpa using hsplit
  rw [hlength, heq]
  simp only [List.length_append, List.length_singleton]
  omega

/-- There is one form for addresses and one for spoiled ones. -/
theorem url_forms : ∀ form ∈ forms, (form.1 = .url → form.2 = plainUrl) ∧
    (form.1 = .badUrl → form.2 = spoiledUrl) := by
  simp [forms]

/-- An address is the first token before any text. -/
theorem first_url_append {t s : List Char} (h : first (t ++ s) = (.url, t.length))
    (s' : List Char) : first (t ++ s') = (.url, t.length) := by
  obtain ⟨before, p, after, htable, hmatch, _⟩ :=
    (form_of_first h).resolve_right fun hdelim => absurd hdelim.2.1 (by decide)
  have hp : p = plainUrl := by
    refine (url_forms (.url, p) ?_).1 rfl
    rw [htable]
    exact List.mem_append_right _ List.mem_cons_self
  rw [hp] at hmatch
  obtain ⟨b, hb, hlen⟩ := length?_eq_some.1 hmatch
  obtain ⟨o, bs, inner, as, ho, hbs, hinner, has, hsplit, hlength⟩ :=
    address_of_mem (List.mem_of_head? hb)
  have hclose := close_not_mem_address ho hbs hinner has
  have ht : t = o ++ (bs ++ (inner ++ as)) ++ [')'] := by
    refine List.append_inj_left
      (show t ++ s = o ++ (bs ++ (inner ++ as)) ++ [')'] ++ b.2 from ?_) ?_
    · rw [hsplit]
      simp
    · simp only [List.length_append, List.length_singleton]
      omega
  have hlocal : plainUrl.isLocal = true := rfl
  have hwithin := plainUrl_within (s := s') hclose
  rw [← ht] at hwithin
  have hagain : plainUrl.length? (t ++ s') = some t.length := by
    rw [length?_append_of_within hlocal fun b hb => Nat.le_of_eq (hwithin b hb)]
    exact length?_of_append hlocal hmatch (Nat.le_refl _)
  have hopen := first_opening ho (bs ++ (inner ++ as) ++ [')'] ++ s')
  have hjoin : o ++ (bs ++ (inner ++ as) ++ [')'] ++ s') = t ++ s' := by
    rw [ht]
    simp
  rw [hjoin, hagain] at hopen
  exact hopen

/-- A spoiled address holds no closing parenthesis before its end. -/
theorem close_not_mem_spoiled {o before inner : List Char} {c : Char} (ho : IsOpening o)
    (hbefore : ∀ d ∈ before, Text.isBlank d = true)
    (hc : ("\"')".toList.contains c || Text.isBlank c) = false) (hinner : ∀ d ∈ inner, d ≠ ')') :
    ')' ∉ o ++ (before ++ c :: inner) := by
  have hopening : ')' ∉ o := by
    have h := @close_not_mem_address o [] [] [] ho (by simp) (by simp) (by simp)
    simpa using h
  simp only [List.mem_append, List.mem_cons, not_or]
  refine ⟨hopening, fun h => ?_, fun h => ?_, fun h => hinner _ h rfl⟩
  · exact absurd (hbefore _ h) (by decide)
  · rw [← h] at hc
    exact absurd hc (by decide)

/-- Spoiled addresses end at the first closing parenthesis, or before it. -/
theorem spoiledUrl_within {a s : List Char} :
    ∀ b ∈ spoiledUrl.ends (0, a ++ [')'] ++ s), b.1 ≤ (a ++ [')']).length := by
  intro b hb
  obtain ⟨o, before, c, inner, close, ho, hbefore, hc, hinner, hend, hsplit, hlength⟩ :=
    spoiled_of_mem hb
  have hclose := close_not_mem_spoiled ho hbefore hc hinner
  by_contra hbeyond
  have hlong : (a ++ [')']).length ≤ (o ++ (before ++ c :: inner)).length := by
    have hone : close.length ≤ 1 := by rcases hend with rfl | rfl <;> simp
    simp only [List.length_append, List.length_cons, List.length_nil] at hbeyond ⊢
    omega
  have hhead : a ++ [')'] <+: o ++ (before ++ c :: inner) := by
    refine List.prefix_of_prefix_length_le (show _ <+: a ++ [')'] ++ s from ⟨s, rfl⟩)
      ⟨close ++ b.2, ?_⟩ hlong
    rw [hsplit]
    simp
  exact hclose (hhead.subset (List.mem_append_right _ List.mem_cons_self))

/-- A spoiled address that is closed is the first token before any text. -/
theorem first_badUrl_append {t s : List Char} (h : first (t ++ s) = (.badUrl, t.length))
    (hlast : t.getLast? = some ')') (s' : List Char) :
    first (t ++ s') = (.badUrl, t.length) := by
  obtain ⟨before, p, after, htable, hmatch, hbefore⟩ :=
    (form_of_first h).resolve_right fun hdelim => absurd hdelim.2.1 (by decide)
  have hp : p = spoiledUrl := by
    refine (url_forms (.badUrl, p) ?_).2 rfl
    rw [htable]
    exact List.mem_append_right _ List.mem_cons_self
  rw [hp] at hmatch
  obtain ⟨b, hb, hlen⟩ := length?_eq_some.1 hmatch
  obtain ⟨o, bs, c, inner, close, ho, hbs, hc, hinner, hend, hsplit, hlength⟩ :=
    spoiled_of_mem (List.mem_of_head? hb)
  have hclose := close_not_mem_spoiled ho hbs hc hinner
  have hjoin : t = o ++ (bs ++ c :: inner) ++ close := by
    refine List.append_inj_left (show t ++ s = o ++ (bs ++ c :: inner) ++ close ++ b.2 from ?_) ?_
    · rw [hsplit]
      simp
    · simp only [List.length_append, List.length_cons]
      omega
  have ht : t = o ++ (bs ++ c :: inner) ++ [')'] := by
    rcases hend with rfl | rfl
    · rw [List.append_nil] at hjoin
      rw [hjoin] at hlast
      exact absurd (List.mem_of_getLast? hlast) hclose
    · exact hjoin
  have hlocal : plainUrl.isLocal = true ∧ spoiledUrl.isLocal = true := ⟨rfl, rfl⟩
  -- no plain address stands in the token, so none stands before another text either
  have hplain : plainUrl.length? (t ++ s') = none := by
    have hopen := first_opening ho (bs ++ c :: inner ++ close ++ s)
    have hwhole : o ++ (bs ++ c :: inner ++ close ++ s) = t ++ s := by
      rw [hjoin]
      simp
    rw [hwhole, h] at hopen
    cases hurl : plainUrl.length? (t ++ s) with
    | some n =>
      rw [hurl] at hopen
      exact absurd (congrArg Prod.fst hopen) (by simp)
    | none =>
      have hwithin := plainUrl_within (s := s') hclose
      rw [← ht] at hwithin
      rw [length?_append_of_within hlocal.1 fun b hb => Nat.le_of_eq (hwithin b hb)]
      exact length?_of_append_none hlocal.1 hurl
  have hspoiled : spoiledUrl.length? (t ++ s') = some t.length := by
    have hwithin := @spoiledUrl_within (o ++ (bs ++ c :: inner)) s'
    rw [← ht] at hwithin
    rw [length?_append_of_within hlocal.2 hwithin]
    exact length?_of_append hlocal.2 hmatch (Nat.le_refl _)
  have hopen := first_opening ho (bs ++ c :: inner ++ [')'] ++ s')
  have hwhole : o ++ (bs ++ c :: inner ++ [')'] ++ s') = t ++ s' := by
    rw [ht]
    simp
  rw [hwhole, hplain, hspoiled] at hopen
  exact hopen

/-! ### What follows a token -/

/-- Two texts go on alike, until the second one stands apart. No escape is open there. -/
def Agrees (s p : List Char) : Prop :=
  ∃ u r w, s = u ++ r ∧ p = u ++ w ∧ Settled (fun _ => True) u ∧ Apart w

/-- What stands apart agrees with any text. -/
theorem Agrees.of_apart {s p : List Char} (h : Apart p) : Agrees s p :=
  ⟨[], s, p, rfl, rfl, .nil, h⟩

/-- A text put before two that agree leaves them in agreement, if it leaves no escape open. -/
theorem Agrees.append {t s p : List Char} (ht : Settled (fun _ => True) t) (h : Agrees s p) :
    Agrees (t ++ s) (t ++ p) := by
  obtain ⟨u, r, w, rfl, rfl, hu, hw⟩ := h
  exact ⟨t ++ u, r, w, (List.append_assoc _ _ _).symm, (List.append_assoc _ _ _).symm,
    ht.append hu, hw⟩

/-- A token stays the first one before any text that agrees with what followed it, if no address
stands there where the token may open one. -/
theorem first_follow {t s p : List Char} {k : Kind} (h : first (t ++ s) = (k, t.length))
    (ht : Settled (fun _ => True) t) (hk : k.isSignificant = true) (hbad : k ≠ .badString)
    (hspoiled : k = .badUrl → t.getLast? = some ')') (hopen : IsOpening t → Shut p)
    (hagrees : Agrees s p) : first (t ++ p) = (k, t.length) := by
  have hpos : 0 < t.length := by
    have hpos := first_pos (t ++ s)
    rwa [h] at hpos
  have hne : t ≠ [] := List.length_pos_iff.1 hpos
  cases hholds : holdsBreaks k with
  | true =>
    cases k <;> simp only [holdsBreaks, Bool.false_eq_true] at hholds
    case comment => exact absurd hk (by decide)
    case whitespace => exact absurd hk (by decide)
    case badString => exact absurd rfl hbad
    case string => exact first_string_append h p
    case url => exact first_url_append h p
    case badUrl => exact first_badUrl_append h (hspoiled rfl) p
  | false =>
    obtain ⟨u, r, w, rfl, rfl, hu, hw⟩ := hagrees
    rw [← List.append_assoc] at h ⊢
    refine first_append_apart h (by simp) (by simp [hne]) (ht.append hu) hholds hw ?_
    intro o v ho hsplit
    obtain ⟨rfl, rfl⟩ := opening_of_first h hne hholds ho hsplit
    exact hopen ho

end Cssom.Token
