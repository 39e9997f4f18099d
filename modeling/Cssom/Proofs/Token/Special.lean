import Cssom.Proofs.Token.Pieces
import Cssom.Proofs.Token.Prefix

/-!
# Comments, white space, strings and addresses

Most tokens end where a character stands that they may not hold. A comment, a string and an address
hold almost any character, and white space those that end the others. Each of them shows in how the
text starts, and where one of them ends hangs on the text up to there alone.
-/

namespace Cssom.Token

open Pattern

/-- The rest of the table, from some form on. -/
def firstFrom (table : List (Kind × Pattern)) (s : List Char) : Kind × Nat :=
  (table.findSome? fun form => (form.2.length? s).map (form.1, ·)).getD (.delim, 1)

/-- The first token is that of the first form in the table that matches. -/
theorem first_eq_firstFrom (s : List Char) : first s = firstFrom forms s := rfl

/-- A form that does not match leaves the rest of the table. -/
theorem firstFrom_cons (form : Kind × Pattern) (table : List (Kind × Pattern)) (s : List Char) :
    firstFrom (form :: table) s =
      match form.2.length? s with
      | some n => (form.1, n)
      | none => firstFrom table s := by
  unfold firstFrom
  rw [List.findSome?_cons]
  cases form.2.length? s <;> rfl

/-! ### Comments -/

/-- A pattern that takes anything may take all of a text. -/
theorem mem_ends_few (n : Nat) (s : List Char) :
    (n + s.length, []) ∈ (few (one fun _ => true)).ends (n, s) := by
  rw [ends]
  induction s generalizing n with
  | nil => exact List.mem_singleton.2 rfl
  | cons c s ih =>
    rw [endsFew, List.mem_cons, List.mem_flatMap]
    right
    refine ⟨(n + 1, s), List.mem_singleton.2 rfl, ?_⟩
    have hnext := ih (n + 1)
    rw [List.length_cons, Nat.add_comm s.length 1, ← Nat.add_assoc]
    exact hnext

/-- A text that starts like a comment is one. -/
theorem first_comment (s : List Char) : (first ('/' :: '*' :: s)).1 = .comment := by
  rw [first_eq_firstFrom, forms, firstFrom_cons]
  cases h : commentForm.length? ('/' :: '*' :: s) with
  | some n => rfl
  | none =>
    rw [length?_eq_none, commentForm, ends, List.flatMap_eq_nil_iff] at h
    have hbody := h (2, s) (List.mem_singleton.2 rfl)
    rw [ends, List.flatMap_eq_nil_iff] at hbody
    have hend := hbody _ (mem_ends_few 2 s)
    exact absurd hend (by simp [ends])

/-- No comment stands where none opens. -/
theorem commentForm_eq_none {s : List Char} (h : ¬ ['/', '*'] <+: s) :
    commentForm.length? s = none := by
  match s, h with
  | [], _ => rfl
  | [c], _ =>
    rw [length?_eq_none]
    by_cases hc : c = '/'
    · subst hc
      rfl
    · simp [commentForm, literal, chars, char, ends, hc]
  | c :: d :: s, h =>
    rw [length?_eq_none]
    have hne : ¬ (c = '/' ∧ d = '*') := fun hcd => h ⟨s, by rw [hcd.1, hcd.2]; rfl⟩
    by_cases hc : c = '/'
    · have hd : d ≠ '*' := fun hd => hne ⟨hc, hd⟩
      simp [commentForm, literal, chars, char, ends, hc, hd]
    · simp [commentForm, literal, chars, char, ends, hc]

/-! ### White space -/

/-- Whether the character separates tokens. -/
def isSpace (c : Char) : Bool :=
  " \t\r\n\x0c".toList.contains c

/-- A character that separates tokens is one of five. -/
theorem mem_spaces {c : Char} (h : isSpace c = true) : c ∈ [' ', '\t', '\r', '\n', '\x0c'] :=
  List.contains_iff_mem.1 h

/-- A character that separates tokens is blank. -/
theorem isBlank_of_isSpace {c : Char} (h : isSpace c = true) : Text.isBlank c = true := by
  have hall : ∀ c ∈ [' ', '\t', '\r', '\n', '\x0c'], Text.isBlank c = true :=
    List.all_eq_true.1 (by decide)
  exact hall c (mem_spaces h)

/-- White space goes on as far as there are blanks. -/
theorem first_space {c : Char} (hc : isSpace c = true) (s : List Char) :
    first (c :: s) = (.whitespace, 1 + (s.takeWhile isSpace).length) := by
  have hcomment : commentForm.length? (c :: s) = none := by
    apply commentForm_eq_none
    rintro ⟨t, ht⟩
    rw [List.cons_append, List.cons.injEq] at ht
    rw [← ht.1] at hc
    exact absurd hc (by decide)
  have hspace : (oneOrMore space).length? (c :: s) = some (1 + (s.takeWhile isSpace).length) := by
    rw [show space = one isSpace from rfl, length?_oneOrMore, if_pos hc]
  rw [first_eq_firstFrom, forms, firstFrom_cons, hcomment, firstFrom_cons, hspace]

/-- White space starts with a character that separates tokens. -/
theorem whitespace_eq_none {c : Char} (hc : isSpace c = false) (s : List Char) :
    (oneOrMore space).length? (c :: s) = none := by
  rw [show space = one isSpace from rfl, length?_oneOrMore, hc]
  rfl

/-! ### Strings -/

/-- Whether the character is a quote. -/
def isQuote (c : Char) : Bool :=
  c == '"' || c == '\''

/-- There are two quotes. -/
theorem isQuote_iff {c : Char} : isQuote c = true ↔ c = '"' ∨ c = '\'' := by
  rw [isQuote, Bool.or_eq_true, beq_iff_eq, beq_iff_eq]

/-- A text that starts with a quote is a string, be it closed or not. -/
theorem first_quote {q : Char} (hq : isQuote q = true) (s : List Char) :
    first (q :: s) = firstFrom (forms.drop 14) (q :: s) := by
  rcases isQuote_iff.1 hq with rfl | rfl <;> rfl

/-- A quote starts a string, finished or not. -/
theorem kind_first_quote {q : Char} (hq : isQuote q = true) (s : List Char) :
    (first (q :: s)).1 = .string ∨ (first (q :: s)).1 = .badString := by
  rw [first_quote hq,
    show forms.drop 14 = (forms.drop 14).head (by decide) :: forms.drop 15 from rfl,
    firstFrom_cons]
  cases h : ((forms.drop 14).head (by decide)).2.length? (q :: s) with
  | some n => exact Or.inl rfl
  | none =>
    right
    rw [show forms.drop 15 = (.badString, alt (openString '"') (openString '\'')) ::
      forms.drop 16 from rfl, firstFrom_cons]
    cases hopen : (alt (openString '"') (openString '\'')).length? (q :: s) with
    | some n => rfl
    | none =>
      rw [length?_eq_none, ends, List.append_eq_nil_iff] at hopen
      have hmany : ∀ d, (many (quotedChar d)).ends (1, s) ≠ [] := by
        intro d
        rw [ends_many rfl]
        simp
      rcases isQuote_iff.1 hq with rfl | rfl
      · exact absurd (by simpa [openString, char, ends] using hopen.1) (hmany '"')
      · exact absurd (by simpa [openString, char, ends] using hopen.2) (hmany '\'')

/-- What may stand between two quotes. -/
inductive StringBody (q : Char) : List Char → Prop where
  | nil : StringBody q []
  | plain {c : Char} {body : List Char} (h : (c == q || "\\\n\r\x0c".toList.contains c) = false)
      (more : StringBody q body) : StringBody q (c :: body)
  | escaped {c : Char} {body : List Char} (more : StringBody q body) :
      StringBody q ('\\' :: c :: body)

/-- Between quotes a plain character is taken by itself. -/
theorem ends_quotedChar_plain {q c : Char}
    (h : (c == q || "\\\n\r\x0c".toList.contains c) = false) (n : Nat) (s : List Char) :
    (quotedChar q).ends (n, c :: s) = [(n + 1, s)] := by
  have hc : c ≠ '\\' := by
    rintro rfl
    simp at h
  simp [quotedChar, ends, char, hc] at h ⊢
  simp [h]

/-- Between quotes a backslash is taken with the character behind it. -/
theorem ends_quotedChar_escaped (q c : Char) (n : Nat) (s : List Char) :
    (quotedChar q).ends (n, '\\' :: c :: s) = [(n + 2, s)] := by
  simp [quotedChar, ends, char]

/-- The closing quote is not taken as a character between the two. -/
theorem ends_quotedChar_quote {q : Char} (hq : isQuote q = true) (n : Nat) (s : List Char) :
    (quotedChar q).ends (n, q :: s) = [] := by
  rcases isQuote_iff.1 hq with rfl | rfl <;> simp [quotedChar, ends, char]

/-- What stands between two quotes is taken up to the closing one first. -/
theorem head?_ends_body {q : Char} (hq : isQuote q = true) {body : List Char}
    (h : StringBody q body) (n : Nat) (s : List Char) :
    ((many (quotedChar q)).ends (n, body ++ q :: s)).head? = some (n + body.length, q :: s) := by
  induction h generalizing n with
  | nil =>
    rw [List.nil_append, ends_many rfl, ends_quotedChar_quote hq]
    rfl
  | plain hc _ ih =>
    rw [List.cons_append, ends_many rfl, ends_quotedChar_plain hc, List.flatMap_singleton,
      List.head?_append, ih, Option.some_or, List.length_cons]
    congr 2
    omega
  | escaped _ ih =>
    rw [List.cons_append, List.cons_append, ends_many rfl, ends_quotedChar_escaped,
      List.flatMap_singleton, List.head?_append, ih, Option.some_or, List.length_cons,
      List.length_cons]
    congr 2
    omega

/-- What is taken between quotes is a plain character or an escape. -/
theorem of_mem_ends_quotedChar {q : Char} {n : Nat} {s : List Char} {m : Place}
    (hm : m ∈ (quotedChar q).ends (n, s)) :
    (∃ c rest, s = c :: rest ∧ (c == q || "\\\n\r\x0c".toList.contains c) = false ∧
      m = (n + 1, rest)) ∨
    ∃ c rest, s = '\\' :: c :: rest ∧ m = (n + 2, rest) := by
  rw [quotedChar, ends, List.mem_append] at hm
  rcases hm with hm | hm
  · rcases s with _ | ⟨c, rest⟩
    · exact absurd hm List.not_mem_nil
    · rw [ends] at hm
      split at hm
      · next hc => exact Or.inl ⟨c, rest, rfl, by simpa using hc, List.mem_singleton.1 hm⟩
      · exact absurd hm List.not_mem_nil
  · rw [ends, List.mem_flatMap] at hm
    obtain ⟨a, ha, hm⟩ := hm
    rcases s with _ | ⟨c, s⟩
    · exact absurd ha List.not_mem_nil
    · rw [char, ends] at ha
      split at ha
      · next hc =>
        rw [List.mem_singleton] at ha
        rw [ha] at hm
        rcases s with _ | ⟨d, rest⟩
        · exact absurd hm List.not_mem_nil
        · rw [ends, if_pos rfl, List.mem_singleton] at hm
          exact Or.inr ⟨d, rest, by rw [beq_iff_eq.1 hc], hm⟩
      · exact absurd ha List.not_mem_nil

/-- What is taken between quotes, step by step, may stand there. -/
theorem body_of_mem_many {q : Char} {n : Nat} {s : List Char} {b : Place}
    (hb : b ∈ (many (quotedChar q)).ends (n, s)) :
    ∃ body, StringBody q body ∧ s = body ++ b.2 ∧ b.1 = n + body.length := by
  induction hs : s.length using Nat.strongRecOn generalizing n s with
  | ind len ih =>
    subst hs
    rw [ends_many rfl, List.mem_append, List.mem_flatMap, List.mem_singleton] at hb
    rcases hb with ⟨m, hm, hb⟩ | rfl
    · have hlen := (quotedChar q).length_lt_of_mem_ends rfl hm
      obtain ⟨body, hbody, hrest, hlength⟩ := ih m.2.length hlen hb rfl
      rcases of_mem_ends_quotedChar hm with ⟨c, rest, rfl, hc, rfl⟩ | ⟨c, rest, rfl, rfl⟩
      · simp only at hrest hlength
        refine ⟨c :: body, .plain hc hbody, by rw [hrest]; rfl, ?_⟩
        rw [hlength, List.length_cons]
        omega
      · simp only at hrest hlength
        refine ⟨'\\' :: c :: body, .escaped hbody, by rw [hrest]; rfl, ?_⟩
        rw [hlength, List.length_cons, List.length_cons]
        omega
    · exact ⟨[], .nil, rfl, rfl⟩

/-- A string is taken with both its quotes. -/
theorem length?_closedString {q : Char} (hq : isQuote q = true) {body : List Char}
    (h : StringBody q body) (s : List Char) :
    (alt (closedString '"') (closedString '\'')).length? (q :: (body ++ q :: s)) =
      some (body.length + 2) := by
  have hclosed : ∀ d, isQuote d = true → StringBody d body →
      ((closedString d).ends (0, d :: (body ++ d :: s))).head? = some (body.length + 2, s) := by
    intro d hd hbody
    obtain ⟨more, hmore⟩ := List.head?_eq_some_iff.1 (head?_ends_body hd hbody 1 s)
    rw [closedString, ends, char, ends, if_pos (beq_self_eq_true d), List.flatMap_singleton, ends,
      hmore, List.flatMap_cons, List.head?_append, ends, if_pos (beq_self_eq_true d)]
    simp only [List.head?_cons, Option.some_or]
    congr 2
    omega
  rw [length?_eq_head?, ends, List.head?_append]
  rcases isQuote_iff.1 hq with rfl | rfl
  · rw [hclosed '"' rfl h]
    rfl
  · rw [hclosed '\'' rfl h]
    rfl

/-- A string ends at its closing quote. -/
theorem first_string {q : Char} (hq : isQuote q = true) {body : List Char} (h : StringBody q body)
    (s : List Char) : first (q :: (body ++ q :: s)) = (.string, body.length + 2) := by
  rw [first_quote hq, show forms.drop 14 = (.string, alt (closedString '"') (closedString '\'')) ::
    forms.drop 15 from rfl, firstFrom_cons, length?_closedString hq h]

/-- The first token is the match of a form before which none matches, or a delimiter where none
matches at all. -/
theorem form_of_first {s : List Char} {k : Kind} {n : Nat} (h : first s = (k, n)) :
    (∃ before p after, forms = before ++ (k, p) :: after ∧ p.length? s = some n ∧
      ∀ form ∈ before, form.2.length? s = none) ∨
    ((∀ form ∈ forms, form.2.length? s = none) ∧ k = .delim ∧ n = 1) := by
  rw [first_eq_firstFrom, firstFrom] at h
  rcases hfound : forms.findSome? fun form => (form.2.length? s).map (form.1, ·) with _ | piece
  · rw [hfound, Option.getD_none, Prod.mk.injEq] at h
    refine Or.inr ⟨fun form hform => ?_, h.1.symm, h.2.symm⟩
    exact Option.map_eq_none_iff.1 (List.findSome?_eq_none_iff.1 hfound form hform)
  · rw [hfound, Option.getD_some] at h
    obtain ⟨before, form, after, htable, hmatch, hbefore⟩ := List.findSome?_eq_some_iff.1 hfound
    obtain ⟨m, hm, hpiece⟩ := Option.map_eq_some_iff.1 hmatch
    rw [h, Prod.mk.injEq] at hpiece
    refine Or.inl ⟨before, form.2, after, ?_, hpiece.2 ▸ hm, fun f hf => ?_⟩
    · rw [htable, ← hpiece.1]
    · exact Option.map_eq_none_iff.1 (hbefore f hf)

/-- The first token is that of a form that matches if none before it does. -/
theorem first_of_form {s : List Char} {k : Kind} {n : Nat} {before after : List (Kind × Pattern)}
    {p : Pattern} (htable : forms = before ++ (k, p) :: after) (hmatch : p.length? s = some n)
    (hbefore : ∀ form ∈ before, form.2.length? s = none) : first s = (k, n) := by
  have hfound : forms.findSome? (fun form => (form.2.length? s).map (form.1, ·)) = some (k, n) := by
    refine List.findSome?_eq_some_iff.2 ⟨before, (k, p), after, htable, ?_, fun form hform => ?_⟩
    · rw [hmatch, Option.map_some]
    · rw [hbefore form hform, Option.map_none]
  rw [first_eq_firstFrom, firstFrom, hfound, Option.getD_some]

/-- Where no form matches, the first token is a delimiter. -/
theorem first_of_none {s : List Char} (h : ∀ form ∈ forms, form.2.length? s = none) :
    first s = (.delim, 1) := by
  rw [first_eq_firstFrom, firstFrom, List.findSome?_eq_none_iff.2]
  · rfl
  · exact fun form hform => Option.map_eq_none_iff.2 (h form hform)

/-- A string is a quote, what may stand behind it, and the same quote. -/
theorem string_of_first {s : List Char} {n : Nat} (h : first s = (.string, n)) :
    ∃ q body rest, isQuote q = true ∧ StringBody q body ∧ s = q :: (body ++ q :: rest) ∧
      n = body.length + 2 := by
  obtain ⟨before, p, after, htable, hmatch, _⟩ :=
    (form_of_first h).resolve_right fun hdelim => absurd hdelim.2.1 (by decide)
  have hform : ∀ form ∈ forms, form.1 = .string →
      form.2 = alt (closedString '"') (closedString '\'') := by simp [forms]
  have hp : p = alt (closedString '"') (closedString '\'') := by
    refine hform (.string, p) ?_ rfl
    rw [htable]
    exact List.mem_append_right _ List.mem_cons_self
  obtain ⟨b, hb, rfl⟩ := length?_eq_some.1 hmatch
  have hmem := List.mem_of_head? hb
  have hclosed : ∀ q, b ∈ (closedString q).ends (0, s) → ∃ body rest, StringBody q body ∧
      s = q :: (body ++ q :: rest) ∧ b.1 = body.length + 2 := by
    intro q hb
    rw [closedString, ends, List.mem_flatMap] at hb
    obtain ⟨a, ha, hb⟩ := hb
    rw [ends, List.mem_flatMap] at hb
    obtain ⟨m, hm, hb⟩ := hb
    obtain ⟨body, hbody, hrest, hlength⟩ := body_of_mem_many hm
    rcases s with _ | ⟨c, s⟩
    · exact absurd ha List.not_mem_nil
    · obtain ⟨i, r⟩ := m
      rcases r with _ | ⟨d, rest⟩
      · exact absurd hb List.not_mem_nil
      · simp only [char, ends, List.mem_ite_nil_right, List.mem_singleton, beq_iff_eq] at ha hb
        obtain ⟨rfl, rfl⟩ := ha
        obtain ⟨rfl, rfl⟩ := hb
        refine ⟨body, rest, hbody, by rw [← hrest], ?_⟩
        simp only at hlength ⊢
        omega
  rw [hp, ends, List.mem_append] at hmem
  rcases hmem with hmem | hmem
  · obtain ⟨body, rest, hbody, hs, hn⟩ := hclosed _ hmem
    exact ⟨'"', body, rest, rfl, hbody, hs, hn⟩
  · obtain ⟨body, rest, hbody, hs, hn⟩ := hclosed _ hmem
    exact ⟨'\'', body, rest, rfl, hbody, hs, hn⟩

/-- A string is what stands between two quotes of a kind. -/
theorem quotes_of_first {t s : List Char} (h : first (t ++ s) = (.string, t.length)) :
    ∃ q body, isQuote q = true ∧ StringBody q body ∧ t = q :: (body ++ [q]) := by
  obtain ⟨q, body, rest, hq, hbody, hsplit, hlength⟩ := string_of_first h
  refine ⟨q, body, hq, hbody, ?_⟩
  refine List.append_inj_left (show t ++ s = q :: (body ++ [q]) ++ rest from ?_) ?_
  · rw [hsplit, List.cons_append, List.append_assoc]
    rfl
  · simp only [List.length_cons, List.length_append, List.length_nil]
    omega

/-! ### Addresses -/

/-- The name that opens an address, in any case, with its parenthesis. -/
def IsOpening (o : List Char) : Prop :=
  ∃ u r l, o = [u, r, l, '('] ∧ u ∈ ['u', 'U'] ∧ r ∈ ['r', 'R'] ∧ l ∈ ['l', 'L']

/-- A test takes one character, which passes it. -/
theorem mem_one {accepts : Char → Bool} {n : Nat} {s : List Char} {b : Place}
    (hb : b ∈ (one accepts).ends (n, s)) : ∃ c, accepts c = true ∧ s = c :: b.2 ∧ b.1 = n + 1 := by
  rcases s with _ | ⟨c, s⟩
  · exact absurd hb List.not_mem_nil
  · rw [ends] at hb
    split at hb
    · next hc =>
      rw [List.mem_singleton] at hb
      exact ⟨c, hc, by rw [hb], by rw [hb]⟩
    · exact absurd hb List.not_mem_nil

/-- What opens an address are four characters of its name and parenthesis. -/
theorem opening_of_mem {n : Nat} {s : List Char} {b : Place} (hb : b ∈ urlOpening.ends (n, s)) :
    ∃ o, IsOpening o ∧ s = o ++ b.2 ∧ b.1 = n + 4 := by
  rw [urlOpening, ends, List.mem_flatMap] at hb
  obtain ⟨a₁, h₁, hb⟩ := hb
  rw [ends, List.mem_flatMap] at hb
  obtain ⟨a₂, h₂, hb⟩ := hb
  rw [ends, List.mem_flatMap] at hb
  obtain ⟨a₃, h₃, hb⟩ := hb
  obtain ⟨u, hu, hs₁, hn₁⟩ := mem_one h₁
  obtain ⟨r, hr, hs₂, hn₂⟩ := mem_one h₂
  obtain ⟨l, hl, hs₃, hn₃⟩ := mem_one h₃
  obtain ⟨c, hc, hs₄, hn₄⟩ := mem_one hb
  refine ⟨[u, r, l, c], ⟨u, r, l, by rw [beq_iff_eq.1 hc], ?_, ?_, ?_⟩, ?_, ?_⟩
  · exact List.contains_iff_mem.1 hu
  · exact List.contains_iff_mem.1 hr
  · exact List.contains_iff_mem.1 hl
  · rw [hs₁, hs₂, hs₃, hs₄]
    rfl
  · omega

/-- What an address without quotes takes: its opening, blanks around what holds neither quotes,
blanks nor parentheses, and its closing parenthesis. -/
theorem address_of_mem {s : List Char} {b : Place} (hb : b ∈ plainUrl.ends (0, s)) :
    ∃ o before inner after, IsOpening o ∧ (∀ c ∈ before, isSpace c = true) ∧
      (∀ c ∈ inner, "\"'()\\ \t\r\n\x0c".toList.contains c = false) ∧
      (∀ c ∈ after, isSpace c = true) ∧
      s = o ++ (before ++ (inner ++ (after ++ ')' :: b.2))) ∧
      b.1 = o.length + (before.length + (inner.length + (after.length + 1))) := by
  rw [plainUrl, ends, List.mem_flatMap] at hb
  obtain ⟨a₁, h₁, hb⟩ := hb
  rw [ends, List.mem_flatMap] at hb
  obtain ⟨a₂, h₂, hb⟩ := hb
  rw [ends, List.mem_flatMap] at hb
  obtain ⟨a₃, h₃, hb⟩ := hb
  rw [ends, List.mem_flatMap] at hb
  obtain ⟨a₄, h₄, hb⟩ := hb
  obtain ⟨o, ho, hs₁, hn₁⟩ := opening_of_mem h₁
  obtain ⟨before, hs₂, hn₂, hbefore⟩ := taken_of_mem_many h₂
  obtain ⟨inner, hs₃, hn₃, hinner⟩ := taken_of_mem_many h₃
  obtain ⟨after, hs₄, hn₄, hafter⟩ := taken_of_mem_many h₄
  obtain ⟨c, hc, hs₅, hn₅⟩ := mem_one hb
  rw [beq_iff_eq.1 hc] at hs₅
  refine ⟨o, before, inner, after, ho, hbefore, ?_, hafter, ?_, ?_⟩
  · exact fun c hc => by simpa using hinner c hc
  · rw [hs₁, hs₂, hs₃, hs₄, hs₅]
  · obtain ⟨u, r, l, rfl, _⟩ := ho
    simp only [List.length_cons, List.length_nil]
    omega

/-- The opening of an address is taken in any case. -/
theorem ends_urlOpening {o : List Char} (ho : IsOpening o) (n : Nat) (s : List Char) :
    (n + 4, s) ∈ urlOpening.ends (n, o ++ s) := by
  obtain ⟨u, r, l, rfl, hu, hr, hl⟩ := ho
  simp only [List.mem_cons, List.not_mem_nil, or_false] at hu hr hl
  simp [urlOpening, oneOf, char, ends, hu, hr, hl]

/-- An opening and a closing parenthesis, with blanks between them around what a plain address may
hold, are an address. -/
theorem plainUrl_of_parts {o before inner after : List Char} (ho : IsOpening o)
    (hbefore : ∀ c ∈ before, isSpace c = true)
    (hinner : ∀ c ∈ inner, "\"'()\\ \t\r\n\x0c".toList.contains c = false)
    (hafter : ∀ c ∈ after, isSpace c = true) (s : List Char) :
    plainUrl.length? (o ++ (before ++ (inner ++ (after ++ ')' :: s)))) ≠ none := by
  intro h
  rw [length?_eq_none, plainUrl, ends, List.flatMap_eq_nil_iff] at h
  have h := h _ (ends_urlOpening ho 0 _)
  rw [ends, List.flatMap_eq_nil_iff] at h
  have h := h _ (mem_ends_many hbefore _ _)
  rw [ends, List.flatMap_eq_nil_iff] at h
  have h := h _ (mem_ends_many (fun c hc => by rw [hinner c hc]; rfl) _ _)
  rw [ends, List.flatMap_eq_nil_iff] at h
  have h := h _ (mem_ends_many hafter _ _)
  exact absurd h (by simp [char, ends])

/-- An opening and a character that is no quote, with only blanks between them, start an address. -/
theorem spoiledUrl_blanks {o blanks : List Char} {c : Char} (ho : IsOpening o)
    (hblanks : ∀ d ∈ blanks, Text.isBlank d = true)
    (hc : ("\"')".toList.contains c || Text.isBlank c) = false) (s : List Char) :
    spoiledUrl.length? (o ++ (blanks ++ c :: s)) ≠ none := by
  intro h
  rw [length?_eq_none, spoiledUrl, ends, List.flatMap_eq_nil_iff] at h
  have h := h _ (ends_urlOpening ho 0 _)
  rw [ends, List.flatMap_eq_nil_iff] at h
  have h := h _ (mem_ends_many hblanks _ _)
  rw [ends, List.flatMap_eq_nil_iff] at h
  have h := h (0 + 4 + blanks.length + 1, s) (by rw [ends, hc]; exact List.mem_cons_self)
  rw [ends, List.flatMap_eq_nil_iff] at h
  have h := h _ (mem_ends_many (List.forall_mem_nil _) _ _)
  rw [opt, ends, ends, List.append_eq_nil_iff] at h
  exact absurd h.2 (by simp)

/-- What a spoiled address takes: its opening, blanks, a character that no other address has there,
and all that is left up to its closing parenthesis or the end. -/
theorem spoiled_of_mem {s : List Char} {b : Place} (hb : b ∈ spoiledUrl.ends (0, s)) :
    ∃ o before c inner close, IsOpening o ∧ (∀ d ∈ before, Text.isBlank d = true) ∧
      ("\"')".toList.contains c || Text.isBlank c) = false ∧ (∀ d ∈ inner, d ≠ ')') ∧
      (close = [] ∨ close = [')']) ∧ s = o ++ (before ++ (c :: (inner ++ (close ++ b.2)))) ∧
      b.1 = o.length + (before.length + (inner.length + (close.length + 1))) := by
  rw [spoiledUrl, ends, List.mem_flatMap] at hb
  obtain ⟨a₁, h₁, hb⟩ := hb
  rw [ends, List.mem_flatMap] at hb
  obtain ⟨a₂, h₂, hb⟩ := hb
  rw [ends, List.mem_flatMap] at hb
  obtain ⟨a₃, h₃, hb⟩ := hb
  rw [ends, List.mem_flatMap] at hb
  obtain ⟨a₄, h₄, hb⟩ := hb
  obtain ⟨o, ho, hs₁, hn₁⟩ := opening_of_mem h₁
  obtain ⟨before, hs₂, hn₂, hbefore⟩ := taken_of_mem_many h₂
  obtain ⟨c, hc, hs₃, hn₃⟩ := mem_one h₃
  obtain ⟨inner, hs₄, hn₄, hinner⟩ := taken_of_mem_many h₄
  have hinner' : ∀ d ∈ inner, d ≠ ')' := fun d hd => by
    rintro rfl
    exact absurd (hinner _ hd) (by decide)
  have hlen : o.length = 4 := by
    obtain ⟨u, r, l, rfl, _⟩ := ho
    rfl
  rw [opt, ends, List.mem_append] at hb
  rcases hb with hb | hb
  · obtain ⟨d, hd, hs₅, hn₅⟩ := mem_one hb
    rw [beq_iff_eq.1 hd] at hs₅
    refine ⟨o, before, c, inner, [')'], ho, hbefore, by simpa using hc, hinner', Or.inr rfl, ?_, ?_⟩
    · rw [hs₁, hs₂, hs₃, hs₄, hs₅]
      rfl
    · simp only [List.length_singleton]
      omega
  · rw [ends, List.mem_singleton] at hb
    refine ⟨o, before, c, inner, [], ho, hbefore, by simpa using hc, hinner', Or.inl rfl, ?_, ?_⟩
    · rw [hs₁, hs₂, hs₃, hs₄, hb]
      rfl
    · simp only [List.length_nil]
      rw [hb]
      omega

end Cssom.Token
