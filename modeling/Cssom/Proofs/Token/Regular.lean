import Cssom.Proofs.Token.Shape

/-!
# Sources with escapes

A backslash escapes what is behind it, unless it is a delimiter by itself. So a token that is no
such delimiter, nor an unfinished string or a spoiled address, leaves no escape open where it ends
(`settled_of_first`), and in a source without such delimiters a token is legible whatever it holds
(`legible_of_regular`).
-/

namespace Cssom.Token

open Pattern

variable {t s : List Char} {k : Kind} {ps qs : List Piece} {p : Piece}

/-! ### Tokens leave no escape open -/

/-- What stands between quotes leaves no escape open. -/
theorem settled_body {q : Char} {body : List Char} (h : StringBody q body) :
    Settled (fun _ => True) body := by
  induction h with
  | nil => exact .nil
  | plain hc _ ih =>
    rw [Bool.or_eq_false_iff] at hc
    refine .plain ?_ trivial ih
    rintro rfl
    exact absurd hc.2 (by decide)
  | escaped _ ih => exact .escaped ih

/-- The opening of an address has no backslash. -/
theorem not_slash_of_opening {o : List Char} (h : IsOpening o) : '\\' ∉ o := by
  obtain ⟨u, r, l, rfl, hu, hr, hl⟩ := h
  simp only [List.mem_cons, List.not_mem_nil, or_false] at hu hr hl ⊢
  rintro (rfl | rfl | rfl | h)
  · exact absurd hu (by decide)
  · exact absurd hr (by decide)
  · exact absurd hl (by decide)
  · exact absurd h (by decide)

/-- A plain address holds no backslash. -/
theorem not_slash_of_url (h : first (t ++ s) = (.url, t.length)) : '\\' ∉ t := by
  obtain ⟨o, before, inner, after, ho, hbefore, hinner, hafter, rfl⟩ := address_of_first h
  simp only [List.mem_append, List.mem_singleton, not_or]
  refine ⟨not_slash_of_opening ho, ⟨fun h => ?_, fun h => ?_, fun h => ?_⟩, by decide⟩
  · exact absurd (hbefore _ h) (by decide)
  · exact absurd (hinner _ h) (by decide)
  · exact absurd (hafter _ h) (by decide)

/-- Where a token ends, no escape is open. -/
theorem settled_of_first (h : first (t ++ s) = (k, t.length)) (hk : k.isSignificant = true)
    (hstring : k ≠ .badString) (hurl : k ≠ .badUrl) (hslash : k = .delim → t ≠ ['\\']) :
    Settled (fun _ => True) t := by
  rcases hholds : holdsBreaks k
  · by_cases hdelim : k = .delim
    · rw [hdelim] at h
      obtain ⟨c, rfl⟩ := List.length_eq_one_iff.1 (length_of_delim h)
      exact .plain (fun hc => hslash hdelim (by rw [hc])) trivial .nil
    · obtain ⟨p, hp, b, hb, hrest, _⟩ := match_of_first h hdelim
      rcases (only_of_mem_forms _ hp hholds).2 with honly | ⟨c, hc, rfl⟩
      · exact (honly 0 _ b hb t (by rw [hrest])).mono fun _ _ => trivial
      · obtain ⟨d, hd, hsplit, _⟩ := mem_one hb
        rw [hrest] at hsplit
        have ht : t = [d] :=
          List.append_cancel_right (hsplit : t ++ s = [d] ++ s)
        rw [ht, beq_iff_eq.1 hd]
        exact .plain hc trivial .nil
  · cases k with
    | string =>
      obtain ⟨q, body, hq, hbody, rfl⟩ := quotes_of_first h
      have hne : q ≠ '\\' := by rcases isQuote_iff.1 hq with rfl | rfl <;> decide
      exact .plain hne trivial ((settled_body hbody).append (.plain hne trivial .nil))
    | url => exact .of_not_mem (not_slash_of_url h)
    | badString => exact absurd rfl hstring
    | badUrl => exact absurd rfl hurl
    | _ => first | exact absurd hk (by decide) | exact absurd hholds (by decide)

/-- No token ends in a blank that is not escaped, but unfinished strings and spoiled addresses. -/
theorem escaped_of_getLast (h : first (t ++ s) = (k, t.length)) (hk : k.isSignificant = true)
    (hstring : k ≠ .badString) (hurl : k ≠ .badUrl) {c : Char} (hlast : t.getLast? = some c)
    (hc : isSpace c = true) : ∃ y, t = y ++ ['\\', c] := by
  obtain ⟨x, rfl⟩ := List.getLast?_eq_some_iff.1 hlast
  have hx : x ≠ [] := by
    rintro rfl
    rw [not_space_of_first h hk] at hc
    cases hc
  have hbreak : ¬ GoesOn c := by
    have hspaces : ∀ c ∈ [' ', '\t', '\r', '\n', '\x0c'], c ∈ breaks := by simp [breaks]
    exact not_not_intro (hspaces c (mem_spaces hc))
  rcases hholds : holdsBreaks k
  · have hdelim : k ≠ .delim := by
      rintro rfl
      have hlength := length_of_delim h
      rw [List.length_append, List.length_singleton] at hlength
      exact hx (List.length_eq_zero_iff.1 (by omega))
    obtain ⟨p, hp, b, hb, hrest, _⟩ := match_of_first h hdelim
    rcases (only_of_mem_forms _ hp hholds).2 with honly | ⟨d, _, rfl⟩
    · obtain ⟨y, rfl⟩ := (honly 0 _ b hb _ (by rw [hrest])).escaped_of_not hbreak
      exact ⟨y, by rw [List.append_assoc]; rfl⟩
    · obtain ⟨e, _, hsplit, _⟩ := mem_one hb
      rw [hrest] at hsplit
      have hone : x ++ [c] = [e] := List.append_cancel_right (hsplit : x ++ [c] ++ s = [e] ++ s)
      exact absurd (List.append_eq_singleton_iff.1 hone) (by simp [hx])
  · exfalso
    cases k with
    | string =>
      obtain ⟨q, body, hq, _, ht⟩ := quotes_of_first h
      rw [ht, ← List.cons_append, List.getLast?_concat, Option.some.injEq] at hlast
      rcases isQuote_iff.1 hq with rfl | rfl <;> rw [← hlast] at hc <;> exact absurd hc (by decide)
    | url =>
      rw [close_of_url h, Option.some.injEq] at hlast
      rw [← hlast] at hc
      exact absurd hc (by decide)
    | badString => exact hstring rfl
    | badUrl => exact hurl rfl
    | _ => first | exact absurd hk (by decide) | exact absurd hholds (by decide)

/-! ### The pieces of a source -/

/-- The pieces of a source in which no backslash is a token by itself. -/
structure Regular (ps : List Piece) : Prop where
  lexes : Lexes ps []
  slash : (.delim, "\\") ∉ ps

/-- A source without escapes is regular. -/
theorem Plain.regular (h : Plain ps) : Regular ps where
  lexes := h.lexes
  slash hmem := by
    apply h.slash
    obtain ⟨before, after, rfl⟩ := List.append_of_mem hmem
    rw [spell_append, spell_cons]
    exact List.mem_append_right _ (List.mem_append_left _ (by decide))

namespace Regular

/-- The last pieces of a regular source are regular. -/
theorem of_append (h : Regular (ps ++ qs)) : Regular qs where
  lexes := (lexes_append.1 h.lexes).2
  slash hmem := h.slash (List.mem_append_right _ hmem)

/-- The pieces behind the first of a regular source are regular. -/
theorem tail (h : Regular (p :: ps)) : Regular ps :=
  @of_append [p] ps h

/-- The first piece of a regular source is the first token of its text. -/
theorem first_eq (h : Regular (p :: ps)) :
    first (p.2.toList ++ spell ps) = (p.1, p.2.toList.length) := by
  have hfirst := h.lexes.1
  rwa [List.append_nil] at hfirst

/-- The first piece of a regular source leaves no escape open, unless it is unfinished or
spoiled. -/
theorem settled_head (h : Regular (p :: ps)) (hk : p.1.isSignificant = true)
    (hstring : p.1 ≠ .badString) (hurl : p.1 ≠ .badUrl) :
    Settled (fun _ => True) p.2.toList := by
  refine settled_of_first h.first_eq hk hstring hurl fun hdelim htext => ?_
  have hpiece : p = (.delim, "\\") := Prod.ext hdelim (String.toList_inj.1 htext)
  exact h.slash (hpiece ▸ List.mem_cons_self)

end Regular

/-- A token that holds no breaks is read back, unless it opens a parenthesis. -/
theorem legible_of_regular (h : Regular (p :: ps)) (hk : p.1.isSignificant = true)
    (hholds : holdsBreaks p.1 = false) (hfunction : p.1 ≠ .function) : Legible [p] where
  head := ⟨p, [], rfl, hk⟩
  lexes w hw := by
    have hfirst := h.first_eq
    have hne := ne_nil_of_first hfirst
    have hclosed : p.1 ≠ .badString ∧ p.1 ≠ .badUrl := by
      constructor
      · intro hkind
        rw [hkind] at hholds
        exact absurd hholds (by decide)
      · intro hkind
        rw [hkind] at hholds
        exact absurd hholds (by decide)
    have hsettled := h.settled_head hk hclosed.1 hclosed.2
    refine ⟨?_, trivial⟩
    apply first_append_apart hfirst (Nat.le_refl _) hne hsettled hholds hw
    intro o u ho hsplit
    obtain ⟨c, rest, hcons⟩ := List.exists_cons_of_ne_nil hne
    rw [hcons, List.cons_append] at hfirst
    have hkind := (start_of_first hfirst hholds).2.2.2 o ho (by
      rw [← List.cons_append, ← hcons, hsplit, List.append_assoc]
      exact List.prefix_append _ _)
    exact absurd hkind.1 hfunction

end Cssom.Token
