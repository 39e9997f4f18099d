import Cssom.Proofs.Token.Legible

/-!
# What tokens look like

What the text of a first token says about its characters: a delimiter is one of them, a hash starts
with its sigil and an unfinished string with its quote, no token ends in a blank, an address stands
between parentheses, and one that is spoiled ends in its closing parenthesis unless it takes all of
the text.
-/

namespace Cssom.Token

open Pattern

variable {t s : List Char} {k : Kind}

/-- A delimiter is a single character. -/
theorem length_of_delim {n : Nat} (h : first s = (.delim, n)) : n = 1 := by
  rcases form_of_first h with ⟨before, p, after, htable, _⟩ | ⟨_, _, hn⟩
  · have hform : ∀ form ∈ forms, form.1 ≠ .delim := by decide
    refine absurd rfl (hform (.delim, p) ?_)
    rw [htable]
    exact List.mem_append_right _ List.mem_cons_self
  · exact hn

/-- The form of a first token, as it matched. -/
theorem match_of_first (h : first (t ++ s) = (k, t.length)) (hk : k ≠ .delim) :
    ∃ p, (k, p) ∈ forms ∧
      ∃ b ∈ p.ends (0, t ++ s), b.2 = s ∧ (p.ends (0, t ++ s)).head? = some b := by
  obtain ⟨before, p, after, htable, hmatch, _⟩ :=
    (form_of_first h).resolve_right fun hdelim => hk hdelim.2.1
  obtain ⟨b, hb, hlength⟩ := length?_eq_some.1 hmatch
  have hmem := List.mem_of_head? hb
  obtain ⟨taken, htaken, htakenLength⟩ := p.splits_of_mem_ends _ b hmem
  simp only at htaken htakenLength
  refine ⟨p, ?_, b, hmem, ?_, hb⟩
  · rw [htable]
    exact List.mem_append_right _ List.mem_cons_self
  · exact (List.append_inj_right htaken (by omega)).symm

/-- What the one form of a kind takes is the text of the token. -/
theorem mem_ends_of_first {p : Pattern} (hform : ∀ form ∈ forms, form.1 = k → form.2 = p)
    (hk : k ≠ .delim) (h : first (t ++ s) = (k, t.length)) :
    ∃ b ∈ p.ends (0, t ++ s), b.2 = s := by
  obtain ⟨q, hq, b, hb, hrest, _⟩ := match_of_first h hk
  rw [show q = p from hform _ hq rfl] at hb
  exact ⟨b, hb, hrest⟩

/-- What a character and a pattern behind it take starts with the character. -/
theorem cons_of_mem_seq {c : Char} {p : Pattern} {b : Place} (ht : t ≠ [])
    (hb : b ∈ (seq (char c) p).ends (0, t ++ s)) :
    ∃ rest, t = c :: rest ∧ b ∈ p.ends (1, rest ++ s) := by
  obtain ⟨d, rest, rfl⟩ := List.exists_cons_of_ne_nil ht
  rw [ends, List.mem_flatMap] at hb
  obtain ⟨m, hm, hb⟩ := hb
  obtain ⟨e, he, hsplit, hn⟩ := mem_one hm
  rw [List.cons_append, List.cons.injEq, beq_iff_eq.1 he] at hsplit
  refine ⟨rest, by rw [hsplit.1], ?_⟩
  rwa [show m = (1, rest ++ s) from Prod.ext (by rw [hn]) hsplit.2.symm] at hb

/-! ### Sigils and quotes -/

/-- A hash starts with its sigil. -/
theorem sigil_of_hash (h : first (t ++ s) = (.hash, t.length)) : ∃ name, t = '#' :: name := by
  obtain ⟨b, hb, _⟩ :=
    mem_ends_of_first (p := seq (char '#') (oneOrMore nameChar)) (by simp [forms]) (by decide) h
  obtain ⟨name, ht, _⟩ := cons_of_mem_seq (ne_nil_of_first h) hb
  exact ⟨name, ht⟩

/-- A string that no quote closes starts with one. -/
theorem quote_of_badString (h : first (t ++ s) = (.badString, t.length)) :
    ∃ q body, isQuote q = true ∧ t = q :: body := by
  obtain ⟨b, hb, _⟩ :=
    mem_ends_of_first (p := alt (openString '"') (openString '\'')) (by simp [forms]) (by decide) h
  rw [ends, List.mem_append] at hb
  rcases hb with hb | hb
  · obtain ⟨body, ht, _⟩ := cons_of_mem_seq (ne_nil_of_first h) hb
    exact ⟨'"', body, rfl, ht⟩
  · obtain ⟨body, ht, _⟩ := cons_of_mem_seq (ne_nil_of_first h) hb
    exact ⟨'\'', body, rfl, ht⟩

/-! ### Blanks -/

/-- A token that holds no breaks holds no blanks. -/
theorem not_space_of_mem (h : first (t ++ s) = (k, t.length)) (hk : k.isSignificant = true)
    (hholds : holdsBreaks k = false) (hslash : '\\' ∉ t) : ∀ c ∈ t, isSpace c = false := by
  obtain ⟨d, u, rfl⟩ := List.exists_cons_of_ne_nil (ne_nil_of_first h)
  have hhead : isSpace d = false := not_space_of_first h hk
  have hsingle : u = [] → ∀ c ∈ d :: u, isSpace c = false := by
    rintro rfl c hc
    rwa [List.mem_singleton.1 hc]
  by_cases hdelim : k = .delim
  · rw [hdelim] at h
    have hlength := length_of_delim h
    rw [List.length_cons] at hlength
    exact hsingle (List.length_eq_zero_iff.1 (by omega))
  · obtain ⟨p, hp, b, hb, hrest, _⟩ := match_of_first h hdelim
    rcases (only_of_mem_forms _ hp hholds).2 with honly | ⟨_, _, rfl⟩
    · intro c hc
      have hbreak := honly.forall_mem hslash hb hrest c hc
      have hspaces : ∀ c ∈ [' ', '\t', '\r', '\n', '\x0c'], c ∈ breaks := by simp [breaks]
      rw [Bool.eq_false_iff]
      exact fun hspace => hbreak (hspaces c (mem_spaces hspace))
    · obtain ⟨c, _, hsplit, _⟩ := mem_one hb
      rw [hrest] at hsplit
      have hlength := congrArg List.length hsplit
      simp only [List.cons_append, List.length_cons, List.length_append] at hlength
      exact hsingle (List.length_eq_zero_iff.1 (by omega))

/-- What follows the first parenthesis is all that stands behind it. -/
theorem afterParen_append {before : List Char} (h : '(' ∉ before) (rest : List Char) :
    afterParen (before ++ '(' :: rest) = rest := by
  have hbefore : ∀ c ∈ before, (c != '(') = true := by
    intro c hc
    rw [bne_iff_ne]
    rintro rfl
    exact h hc
  rw [afterParen, if_pos (by simp), List.dropWhile_append_of_pos hbefore]
  simp

/-- An address without quotes, as it stands between its opening and its closing parenthesis. -/
theorem address_of_first (h : first (t ++ s) = (.url, t.length)) :
    ∃ o before inner after, IsOpening o ∧ (∀ c ∈ before, isSpace c = true) ∧
      (∀ c ∈ inner, "\"'()\\ \t\r\n\x0c".toList.contains c = false) ∧
      (∀ c ∈ after, isSpace c = true) ∧ t = o ++ (before ++ (inner ++ after) ++ [')']) := by
  obtain ⟨b, hb, hrest⟩ := mem_ends_of_first (p := plainUrl) (by simp [forms]) (by decide) h
  obtain ⟨o, before, inner, after, ho, hbefore, hinner, hafter, hsplit, _⟩ := address_of_mem hb
  refine ⟨o, before, inner, after, ho, hbefore, hinner, hafter,
    List.append_cancel_right (hsplit.trans ?_)⟩
  rw [hrest]
  simp

/-- An address ends in a closing parenthesis. -/
theorem close_of_url (h : first (t ++ s) = (.url, t.length)) : t.getLast? = some ')' := by
  obtain ⟨o, before, inner, after, _, _, _, _, rfl⟩ := address_of_first h
  rw [← List.append_assoc, List.getLast?_concat]

/-- No token ends in a blank, but unfinished strings and spoiled addresses. -/
theorem not_space_of_getLast (h : first (t ++ s) = (k, t.length)) (hk : k.isSignificant = true)
    (hslash : '\\' ∉ t) (hstring : k ≠ .badString) (hurl : k ≠ .badUrl) {c : Char}
    (hc : t.getLast? = some c) : isSpace c = false := by
  rcases hholds : holdsBreaks k
  · exact not_space_of_mem h hk hholds hslash c (List.mem_of_getLast? hc)
  · cases k with
    | string =>
      obtain ⟨q, body, hq, _, rfl⟩ := quotes_of_first h
      rw [← List.cons_append, List.getLast?_concat, Option.some.injEq] at hc
      rcases isQuote_iff.1 hq with rfl | rfl <;> rw [← hc] <;> decide
    | url =>
      rw [close_of_url h, Option.some.injEq] at hc
      rw [← hc]
      decide
    | badString => exact absurd rfl hstring
    | badUrl => exact absurd rfl hurl
    | _ => first | exact absurd hk (by decide) | exact absurd hholds (by decide)

/-! ### Addresses -/

/-- The rest of a spoiled address goes on through the next closing parenthesis. -/
theorem head?_ends_spoiled (n : Nat) (s : List Char) {b : Place}
    (h : ((seq (many (noneOf ")")) (opt (char ')'))).ends (n, s)).head? = some b) :
    b.2 = [] ∨ ∃ taken, s = taken ++ ')' :: b.2 := by
  rw [ends, List.head?_flatMap, noneOf] at h
  have hmany := head?_ends_many (fun c => !")".toList.contains c) n s
  rcases hends : (many (one fun c => !")".toList.contains c)).ends (n, s) with _ | ⟨m, more⟩
  · rw [hends] at hmany
    exact absurd hmany (by simp)
  rw [hends, List.head?_cons, Option.some.injEq] at hmany
  rw [hends, hmany, List.findSome?_cons] at h
  rcases hdrop : s.dropWhile fun c => !")".toList.contains c with _ | ⟨c, rest⟩
  · left
    rw [hdrop] at h
    simp [opt, ends] at h
    exact h ▸ rfl
  · right
    have hc : c = ')' := by
      have hhead := List.head?_dropWhile_not (fun c => !")".toList.contains c) s
      rw [hdrop] at hhead
      simpa using hhead
    have hb : b.2 = rest := by
      rw [hdrop] at h
      simp [opt, ends, char, hc] at h
      exact h ▸ rfl
    refine ⟨s.takeWhile fun c => !")".toList.contains c, ?_⟩
    rw [hb, ← hc, ← hdrop, List.takeWhile_append_dropWhile]

/-- A spoiled address takes all of the text, or ends in its closing parenthesis. -/
theorem close_of_badUrl (h : first (t ++ s) = (.badUrl, t.length)) :
    s = [] ∨ t.getLast? = some ')' := by
  obtain ⟨p, hp, b, hb, hrest, hhead⟩ := match_of_first h (by decide)
  have hform : p = spoiledUrl := (url_forms _ hp).2 rfl
  rw [hform, spoiledUrl, ends, List.head?_flatMap] at hhead
  obtain ⟨m₁, hm₁, hhead⟩ := List.exists_of_findSome?_eq_some hhead
  rw [ends, List.head?_flatMap] at hhead
  obtain ⟨m₂, hm₂, hhead⟩ := List.exists_of_findSome?_eq_some hhead
  rw [ends, List.head?_flatMap] at hhead
  obtain ⟨m₃, hm₃, hhead⟩ := List.exists_of_findSome?_eq_some hhead
  rw [← hrest]
  refine (head?_ends_spoiled m₃.1 m₃.2 hhead).imp id ?_
  rintro ⟨taken, htaken⟩
  obtain ⟨u₁, hu₁, _⟩ := urlOpening.splits_of_mem_ends _ _ hm₁
  obtain ⟨u₂, hu₂, _⟩ := (many (one Text.isBlank)).splits_of_mem_ends _ _ hm₂
  obtain ⟨u₃, hu₃, _⟩ := splits_of_mem_ends _ _ _ hm₃
  have ht : t ++ s = u₁ ++ u₂ ++ u₃ ++ taken ++ [')'] ++ s := by
    rw [show t ++ s = _ from hu₁, hu₂, hu₃, htaken, hrest]
    simp
  rw [List.append_cancel_right ht, List.getLast?_concat]

/-! ### Printing the next token -/

/-- A token of a plain source is printed after what calls for it. What it opens, or spoils, must
not be the last thing in the source. -/
theorem Prints.next {fresh : Bool} {lead src sep ps : List Piece} {p : Piece}
    (hplain : Plain (p :: src)) (hlead : ∀ q ∈ lead, q.1.isSignificant = false)
    (hk : p.1.isSignificant = true) (hsep : Spaced fresh lead p.1 sep)
    (hmore : p.1 = .function ∨ p.1 = .badUrl → ∃ q ∈ src, q.1.isSignificant = true)
    (more : Prints false src ps) : Prints fresh (lead ++ p :: src) (sep ++ p :: ps) := by
  refine .token hlead hk hsep (fun hbad => ?_) (fun ho => ?_) more
  · obtain ⟨q, hq, _⟩ := hmore (Or.inr hbad)
    have hfirst := hplain.first_eq
    rw [hbad] at hfirst
    refine (close_of_badUrl hfirst).resolve_left fun hnil => ?_
    obtain ⟨before, after, rfl⟩ := List.append_of_mem hq
    have hne := ne_nil_of_first hplain.tail.of_append.first_eq
    rw [spell_append, spell_cons] at hnil
    simp only [List.append_eq_nil_iff] at hnil
    exact hne hnil.2.1
  · exact hmore (Or.inl (kind_of_opening ho hplain.first_eq).1)

end Cssom.Token
