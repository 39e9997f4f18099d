import Cssom.Proofs.Token.Shape

/-!
# Identifiers

A name consists of characters of names and of escapes (`only_isNameChar`). There is one way only to
read it from its start (`start_determined`, `nameChar_determined`), so it goes on as far as it can;
and no form that is tried earlier takes what a name starts with. So a text that is an identifier as
a whole is read as one (`first_of_isIdentifier`), whatever escapes it holds, and whatever is read as
an identifier is one as a whole (`isIdentifier_of_first`), be it a token by itself or the name in an
at-keyword or a function (`name_of_atKeyword`, `name_of_function`).
-/

namespace Cssom

namespace Pattern

/-! ### Patterns with one end -/

/-- The pattern ends at one place at most, wherever it starts. -/
def Determined (p : Pattern) : Prop :=
  ∀ a, ∀ b ∈ p.ends a, ∀ b' ∈ p.ends a, b = b'

/-- Where a unit ends at one place at most, its repetition goes on to the last of its ends. -/
theorem Determined.head?_ends_many {unit : Pattern} (h : unit.Determined)
    (htakes : unit.takesSome = true) (a : Place) :
    ∃ last, ((many unit).ends a).head? = some last ∧ ∀ b ∈ (many unit).ends a, last.2 <:+ b.2 := by
  induction hn : a.2.length using Nat.strongRecOn generalizing a with
  | ind n ih =>
    subst hn
    rw [ends_many htakes]
    rcases hunit : unit.ends a with _ | ⟨next, more⟩
    · refine ⟨a, rfl, fun b hb => ?_⟩
      rw [List.flatMap_nil, List.nil_append, List.mem_singleton] at hb
      subst hb
      exact List.suffix_rfl
    · have hnext : next ∈ unit.ends a := by rw [hunit]; exact List.mem_cons_self
      obtain ⟨last, hlast, hall⟩ := ih _ (unit.length_lt_of_mem_ends htakes hnext) next rfl
      refine ⟨last, ?_, fun b hb => ?_⟩
      · rw [List.flatMap_cons, List.append_assoc, List.head?_append, hlast, Option.some_or]
      · rw [List.mem_append, List.mem_flatMap, List.mem_singleton] at hb
        rcases hb with ⟨m, hm, hb⟩ | rfl
        · rw [← hunit] at hm
          rw [h a m hm next hnext] at hb
          exact hall b hb
        · obtain ⟨taken, htaken, _⟩ := unit.splits_of_mem_ends _ next hnext
          obtain ⟨t, ht, _⟩ := (many unit).splits_of_mem_ends _ last (List.mem_of_head? hlast)
          exact ⟨taken ++ t, by rw [htaken, ht, List.append_assoc]⟩

end Pattern

namespace Token

open Pattern

variable {t s : List Char} {k : Kind}

/-! ### Characters of names -/

/-- A character that a name goes on with, where it has no escapes. -/
def isNameChar (c : Char) : Bool :=
  isLetter c || c.isDigit || c == '-' || isBeyondAscii c

/-- A test that only characters of names pass takes only these. -/
theorem only_one_isNameChar {accepts : Char → Bool}
    (h : ∀ c, accepts c = true → isNameChar c = true) :
    Only (fun c => isNameChar c = true) (one accepts) :=
  .one fun c hc => ⟨by rintro rfl; exact absurd (h _ hc) (by decide), h c hc⟩

/-- What a name goes on with is a character of names or an escape. -/
theorem only_isNameChar_nameChar : Only (fun c => isNameChar c = true) nameChar :=
  (only_one_isNameChar fun c hc => by rw [isNameChar, hc]; rfl).alt
    ((only_one_isNameChar fun c hc => by simp [isNameChar, hc]).alt .escaped)

/-- An identifier holds characters of names and escapes only. -/
theorem only_isNameChar : Only (fun c => isNameChar c = true) identifier := by
  have hstart : Only (fun c => isNameChar c = true) nameStart :=
    (only_one_isNameChar fun c hc => by simp [isNameChar, hc]).alt
      ((only_one_isNameChar fun c hc => by simp [isNameChar, hc]).alt .escaped)
  have hhyphens : Only (fun c => isNameChar c = true) (literal "--") :=
    .literal (by simp [isNameChar])
  have hhyphen : Only (fun c => isNameChar c = true) (char '-') := .char (by decide) (by decide)
  exact (hhyphens.alt (hhyphen.opt.seq hstart)).seq (only_isNameChar_nameChar.many rfl)

/-! ### One way to read a name -/

/-- What one step in a name takes: a character, or an escape. -/
theorem mem_ends_step {accepts : Char → Bool} (h : accepts '\\' = false) {n : Nat} {b : Place}
    (hb : b ∈ (alt (one accepts) (alt (one isBeyondAscii) escape)).ends (n, s)) :
    (∃ c, c ≠ '\\' ∧ (accepts c || isBeyondAscii c) = true ∧ s = c :: b.2 ∧ b.1 = n + 1) ∨
      ∃ c, s = '\\' :: c :: b.2 ∧ b.1 = n + 2 := by
  rw [ends, List.mem_append, ends, List.mem_append] at hb
  rcases hb with hb | hb | hb
  · obtain ⟨c, hc, hsplit, hn⟩ := mem_one hb
    refine Or.inl ⟨c, ?_, by rw [hc]; rfl, hsplit, hn⟩
    rintro rfl
    exact Bool.false_ne_true (h.symm.trans hc)
  · obtain ⟨c, hc, hsplit, hn⟩ := mem_one hb
    refine Or.inl ⟨c, ?_, by rw [hc, Bool.or_true], hsplit, hn⟩
    rintro rfl
    exact absurd hc (by decide)
  · rw [escape, ends, List.mem_flatMap] at hb
    obtain ⟨m, hm, hb⟩ := hb
    obtain ⟨c, hc, hsplit, hn⟩ := mem_one hm
    obtain ⟨d, _, hsplit', hn'⟩ := mem_one hb
    refine Or.inr ⟨d, ?_, by omega⟩
    rw [hsplit, hsplit', beq_iff_eq.1 hc]

/-- A choice between tests that no backslash passes and an escape has one end at most. -/
theorem step_determined {accepts : Char → Bool} (h : accepts '\\' = false) :
    (alt (one accepts) (alt (one isBeyondAscii) escape)).Determined := by
  rintro ⟨n, s⟩ b hb b' hb'
  rcases mem_ends_step h hb with ⟨c, hc, _, hsplit, hn⟩ | ⟨c, hsplit, hn⟩ <;>
    rcases mem_ends_step h hb' with ⟨c', hc', _, hsplit', hn'⟩ | ⟨c', hsplit', hn'⟩ <;>
    rw [hsplit] at hsplit'
  · exact Prod.ext (hn.trans hn'.symm) (List.cons.inj hsplit').2
  · exact absurd (List.cons.inj hsplit').1 hc
  · exact absurd (List.cons.inj hsplit').1.symm hc'
  · exact Prod.ext (hn.trans hn'.symm) (List.cons.inj (List.cons.inj hsplit').2).2

/-- A name goes on in one way at most. -/
theorem nameChar_determined : nameChar.Determined :=
  step_determined (by decide)

/-- A hyphen starts no name by itself. -/
theorem nameStart_hyphen (n : Nat) (s : List Char) : nameStart.ends (n, '-' :: s) = [] := by
  simp [nameStart, escape, char, ends, isLetter, isBeyondAscii]

/-- What a name starts with: two hyphens, or a step behind a hyphen or none. -/
def nameHead : Pattern :=
  alt (literal "--") (seq (opt (char '-')) nameStart)

/-- An identifier is what a name starts with, and then whatever goes on with it. -/
theorem identifier_eq : identifier = seq nameHead (many nameChar) := rfl

/-- A name starts with two hyphens, with a hyphen and a step, or with a step. -/
theorem mem_ends_nameHead {n : Nat} {b : Place} (hb : b ∈ nameHead.ends (n, s)) :
    (s = '-' :: '-' :: b.2 ∧ b.1 = n + 2) ∨ (∃ r, s = '-' :: r ∧ b ∈ nameStart.ends (n + 1, r)) ∨
      b ∈ nameStart.ends (n, s) := by
  rw [nameHead, ends, List.mem_append] at hb
  rcases hb with hb | hb
  · have hhyphens : b ∈ (seq (char '-') (char '-')).ends (n, s) := hb
    rw [ends, List.mem_flatMap] at hhyphens
    obtain ⟨m, hm, hb⟩ := hhyphens
    obtain ⟨c, hc, hsplit, hn⟩ := mem_one hm
    obtain ⟨d, hd, hsplit', hn'⟩ := mem_one hb
    refine Or.inl ⟨?_, by omega⟩
    rw [hsplit, hsplit', beq_iff_eq.1 hc, beq_iff_eq.1 hd]
  · rw [ends, List.mem_flatMap] at hb
    obtain ⟨m, hm, hb⟩ := hb
    rw [opt, ends, List.mem_append] at hm
    rcases hm with hm | hm
    · obtain ⟨c, hc, hsplit, hn⟩ := mem_one hm
      refine Or.inr (Or.inl ⟨m.2, ?_, ?_⟩)
      · rw [hsplit, beq_iff_eq.1 hc]
      · rwa [← hn]
    · rw [ends, List.mem_singleton] at hm
      rw [hm] at hb
      exact Or.inr (Or.inr hb)

/-- A name starts in one way at most. -/
theorem nameHead_determined : nameHead.Determined := by
  have hstart : nameStart.Determined := step_determined (by decide)
  have hnone : ∀ n r b, b ∉ nameStart.ends (n, '-' :: r) := by
    intro n r b hb
    rw [nameStart_hyphen] at hb
    exact List.not_mem_nil hb
  rintro ⟨n, s⟩ b hb b' hb'
  rcases mem_ends_nameHead hb with ⟨rfl, hn⟩ | ⟨r, rfl, hstep⟩ | hstep
  · rcases mem_ends_nameHead hb' with ⟨hsplit, hn'⟩ | ⟨r, hsplit, hstep'⟩ | hstep'
    · exact Prod.ext (hn.trans hn'.symm) (List.cons.inj (List.cons.inj hsplit).2).2
    · rw [← (List.cons.inj hsplit).2] at hstep'
      exact absurd hstep' (hnone _ _ _)
    · exact absurd hstep' (hnone _ _ _)
  · rcases mem_ends_nameHead hb' with ⟨hsplit, _⟩ | ⟨r', hsplit, hstep'⟩ | hstep'
    · rw [(List.cons.inj hsplit).2] at hstep
      exact absurd hstep (hnone _ _ _)
    · rw [← (List.cons.inj hsplit).2] at hstep'
      exact hstart _ b hstep b' hstep'
    · exact absurd hstep' (hnone _ _ _)
  · rcases mem_ends_nameHead hb' with ⟨rfl, _⟩ | ⟨r, rfl, _⟩ | hstep'
    · exact absurd hstep (hnone _ _ _)
    · exact absurd hstep (hnone _ _ _)
    · exact hstart _ b hstep b' hstep'

/-! ### Identifiers as a whole -/

/-- A text that is an identifier as a whole is read as one to its end. -/
theorem exists_mem_ends_of_isIdentifier {name : String} (h : isIdentifier name = true) :
    ∃ b ∈ identifier.ends (0, name.toList), b.2 = [] := by
  rw [isIdentifier, covers, Option.isSome_iff_exists] at h
  obtain ⟨n, hn⟩ := h
  obtain ⟨b, hb, _⟩ := length?_eq_some.1 hn
  have hmem := List.mem_of_head? hb
  rw [ends, List.mem_flatMap] at hmem
  obtain ⟨m, hm, hend⟩ := hmem
  rw [ends] at hend
  split at hend
  · next hempty => exact ⟨m, hm, List.isEmpty_iff.1 hempty⟩
  · exact absurd hend List.not_mem_nil

/-- A name that is read out of a text is an identifier as a whole. -/
theorem isIdentifier_of_mem_ends {n : Nat} {b : Place} (hb : b ∈ identifier.ends (n, t ++ s))
    (hrest : b.2 = s) : isIdentifier (String.ofList t) = true := by
  have hfilter := identifier.filter_ends_append rfl n t s
  have hwithin : b.1 ≤ n + t.length := by
    have hlength := (identifier.splits_of_mem_ends _ b hb).length_eq
    simp only [hrest, List.length_append] at hlength
    omega
  have hkept : b ∈ (identifier.ends (n, t)).map (extend s) := by
    rw [← hfilter]
    exact List.mem_filter.2 ⟨hb, decide_eq_true hwithin⟩
  obtain ⟨b', hb', rfl⟩ := List.mem_map.1 hkept
  have hnil : b'.2 = [] := by
    have hsame : b'.2 ++ s = s := hrest
    exact List.append_cancel_right (hsame.trans (List.nil_append s).symm)
  -- To be one as a whole the name has to be read from the start, so characters are counted anew.
  rw [show ((n, t) : Place) = further n (0, t) from rfl, ends_further] at hb'
  obtain ⟨a, ha, rfl⟩ := List.mem_map.1 hb'
  rw [isIdentifier, String.toList_ofList, covers, Option.isSome_iff_ne_none, Ne, length?_eq_none,
    ends, List.flatMap_eq_nil_iff]
  intro hall
  have hend := hall a ha
  rw [ends, show a.2 = [] from hnil] at hend
  exact absurd hend (List.cons_ne_nil _ _)

/-- A token that is an identifier is one as a whole. -/
theorem isIdentifier_of_first (h : first (t ++ s) = (.ident, t.length)) :
    isIdentifier (String.ofList t) = true := by
  obtain ⟨b, hb, hrest⟩ := mem_ends_of_first (p := identifier) (by simp [forms]) (by decide) h
  exact isIdentifier_of_mem_ends hb hrest

/-- An at-keyword is an identifier behind an at-sign. -/
theorem name_of_atKeyword (h : first (t ++ s) = (.atKeyword, t.length)) :
    ∃ name, t = '@' :: name ∧ isIdentifier (String.ofList name) = true := by
  obtain ⟨b, hb, hrest⟩ :=
    mem_ends_of_first (p := seq (char '@') identifier) (by simp [forms]) (by decide) h
  obtain ⟨name, ht, hb⟩ := cons_of_mem_seq (ne_nil_of_first h) hb
  exact ⟨name, ht, isIdentifier_of_mem_ends hb hrest⟩

/-- A function is an identifier before an opening parenthesis. -/
theorem name_of_function (h : first (t ++ s) = (.function, t.length)) :
    ∃ name, t = name ++ ['('] ∧ isIdentifier (String.ofList name) = true := by
  obtain ⟨b, hb, hrest⟩ :=
    mem_ends_of_first (p := seq identifier (char '(')) (by simp [forms]) (by decide) h
  rw [ends, List.mem_flatMap] at hb
  obtain ⟨m, hm, hb⟩ := hb
  obtain ⟨c, hc, hparen, _⟩ := mem_one hb
  rw [beq_iff_eq.1 hc, hrest] at hparen
  obtain ⟨name, hsplit, _⟩ := identifier.splits_of_mem_ends _ m hm
  have htext : t ++ s = name ++ m.2 := hsplit
  have ht : t ++ s = name ++ ['('] ++ s := by
    rw [htext, hparen, List.append_assoc]
    rfl
  rw [htext] at hm
  exact ⟨name, List.append_cancel_right ht, isIdentifier_of_mem_ends hm rfl⟩

/-- A text that is an identifier as a whole is matched as a whole. -/
theorem length?_identifier {name : String} (h : isIdentifier name = true) :
    identifier.length? name.toList = some name.toList.length := by
  obtain ⟨b, hb, hrest⟩ := exists_mem_ends_of_isIdentifier h
  rw [identifier_eq, ends, List.mem_flatMap] at hb
  obtain ⟨m, hm, hb⟩ := hb
  obtain ⟨head, more, hends⟩ := List.exists_cons_of_ne_nil (List.ne_nil_of_mem hm)
  have hhead : head ∈ nameHead.ends (0, name.toList) := by rw [hends]; exact List.mem_cons_self
  rw [nameHead_determined _ m hm head hhead] at hb
  obtain ⟨last, hlast, hall⟩ := nameChar_determined.head?_ends_many rfl head
  have hnil : last.2 = [] := by
    have hsuffix := hall b hb
    rw [hrest] at hsuffix
    exact List.suffix_nil.1 hsuffix
  have hsplits := (nameHead.splits_of_mem_ends _ head hhead).trans
    ((many nameChar).splits_of_mem_ends _ last (List.mem_of_head? hlast))
  have hlength := hsplits.length_eq
  simp only [hnil, List.length_nil] at hlength
  refine length?_eq_some.2 ⟨last, ?_, by omega⟩
  rw [identifier_eq, ends, hends, List.flatMap_cons, List.head?_append, hlast, Option.some_or]

/-! ### No number starts like a name -/

/-- The character starts no number. -/
def startsNoNumber (c : Char) : Prop :=
  c.isDigit = false ∧ c ≠ '.'

/-- What a step at the start of a name starts with. -/
theorem start_of_nameStart {n : Nat} {b : Place} (hb : b ∈ nameStart.ends (n, s)) :
    ∃ c rest, s = c :: rest ∧ startsNoNumber c ∧ c ≠ '-' := by
  rcases mem_ends_step (by decide) hb with ⟨c, _, hc, hsplit, _⟩ | ⟨c, hsplit, _⟩
  · refine ⟨c, _, hsplit, ⟨?_, ?_⟩, ?_⟩
    · rw [Bool.eq_false_iff]
      intro hd
      have hrange : 48 ≤ c.toNat ∧ c.toNat ≤ 57 := by
        simp only [Char.isDigit, Bool.and_eq_true, decide_eq_true_eq] at hd
        exact hd
      rcases Bool.or_eq_true_iff.1 hc with hc | hc
      · have hkinds : ((c.isUpper || c.isLower) || c == '_') = true := hc
        rw [Bool.or_eq_true, Bool.or_eq_true, beq_iff_eq] at hkinds
        rcases hkinds with (hupper | hlower) | rfl
        · have hcapital : 65 ≤ c.toNat := (of_decide_eq_true hupper).1
          omega
        · have hsmall : 97 ≤ c.toNat := of_decide_eq_true (Bool.and_eq_true_iff.1 hlower).1
          omega
        · exact absurd hrange (by decide)
      · simp only [isBeyondAscii, decide_eq_true_eq] at hc
        omega
    · rintro rfl
      exact absurd hc (by decide)
    · rintro rfl
      exact absurd hc (by decide)
  · exact ⟨'\\', _, hsplit, ⟨by decide, by decide⟩, by decide⟩

/-- What a name starts with starts no number, nor does what follows a hyphen there. -/
theorem start_of_identifier {b : Place} (hb : b ∈ identifier.ends (0, s)) :
    ∃ c rest, s = c :: rest ∧ startsNoNumber c ∧
      (c = '-' → ∃ d more, rest = d :: more ∧ startsNoNumber d) := by
  rw [identifier_eq, ends, List.mem_flatMap] at hb
  obtain ⟨m, hm, _⟩ := hb
  rcases mem_ends_nameHead hm with ⟨hsplit, _⟩ | ⟨r, hsplit, hm⟩ | hm
  · exact ⟨'-', _, hsplit, ⟨by decide, by decide⟩, fun _ => ⟨'-', _, rfl, by decide, by decide⟩⟩
  · obtain ⟨d, more, hr, hd, _⟩ := start_of_nameStart hm
    exact ⟨'-', r, hsplit, ⟨by decide, by decide⟩, fun _ => ⟨d, more, hr, hd⟩⟩
  · obtain ⟨c, rest, hsplit, hc, hhyphen⟩ := start_of_nameStart hm
    exact ⟨c, rest, hsplit, hc, fun h => absurd h hhyphen⟩

/-- No number starts where neither its sign nor its digits can. -/
theorem numeral_eq_nil {c : Char} {rest : List Char} (hc : startsNoNumber c)
    (hhyphen : c = '-' → ∃ d more, rest = d :: more ∧ startsNoNumber d) (hplus : c ≠ '+')
    (n : Nat) : numeral.ends (n, c :: rest) = [] := by
  have hbody : ∀ m r, (∃ d more, r = d :: more ∧ startsNoNumber d) →
      (alt (seq (many digit) (seq (char '.') (oneOrMore digit))) (oneOrMore digit)).ends (m, r) =
        [] := by
    rintro m _ ⟨d, more, rfl, hd, hdot⟩
    have hmany : (many digit).ends (m, d :: more) = [(m, d :: more)] := by
      rw [ends_many rfl, digit, ends, hd]
      rfl
    rw [ends, ends, hmany]
    simp [oneOrMore, digit, char, ends, hd, hdot]
  rw [numeral, ends, List.flatMap_eq_nil_iff]
  intro a ha
  rw [ends, List.flatMap_eq_nil_iff]
  intro b hb
  rw [opt, ends, List.mem_append] at ha
  rcases ha with ha | ha
  · obtain ⟨d, hd, hsplit, _⟩ := mem_one ha
    rw [List.cons.injEq] at hsplit
    have hsign : c = '-' := by
      have hmem : d ∈ ['+', '-'] := List.contains_iff_mem.1 hd
      rw [← hsplit.1] at hmem
      simpa [hplus] using hmem
    rw [hbody a.1 a.2 (hsplit.2 ▸ hhyphen hsign)] at hb
    exact absurd hb List.not_mem_nil
  · rw [ends, List.mem_singleton] at ha
    rw [ha, hbody n _ ⟨c, rest, rfl, hc⟩] at hb
    exact absurd hb List.not_mem_nil

/-! ### No other token starts like a name -/

section

variable (h : Settled (fun c => isNameChar c = true) s)
include h

/-- Where no escape is open, a name goes on with nothing but characters of names. -/
theorem isNameChar_of_split {x y : List Char} {d : Char} (hsplit : s = x ++ d :: y)
    (hx : Settled (fun _ => True) x) (hd : d ≠ '\\') : isNameChar d = true := by
  rw [hsplit] at h
  exact ((hx.of_append h).of_cons hd).1

/-- A settled text of names does not start with a character that no name has. -/
theorem ne_of_cons {c d : Char} {rest : List Char} (hcons : s = c :: rest)
    (hd : isNameChar d = false) (hslash : d ≠ '\\') : c ≠ d := by
  rintro rfl
  rw [isNameChar_of_split h (x := []) hcons .nil hslash] at hd
  exact Bool.false_ne_true hd.symm

/-- A settled text of names does not start with the opening of an address. -/
theorem not_prefix_of_isOpening {o : List Char} (ho : IsOpening o) : ¬ o <+: s := by
  rintro ⟨more, hsplit⟩
  obtain ⟨u, r, l, rfl, hu, hr, hl⟩ := ho
  simp only [List.mem_cons, List.not_mem_nil, or_false] at hu hr hl
  have hletters : ∀ d ∈ [u, r, l], d ≠ '\\' ∧ True := by
    rintro d hd
    refine ⟨?_, trivial⟩
    rintro rfl
    simp only [List.mem_cons, List.not_mem_nil, or_false] at hd
    rcases hd with rfl | rfl | rfl <;> simp at hu hr hl
  have hparen := isNameChar_of_split h (x := [u, r, l]) hsplit.symm (.of_forall hletters)
    (by decide)
  exact absurd hparen (by decide)

/-- A settled text of names is no closing marker of a comment. -/
theorem arrow_eq_none : (literal "-->").length? s = none := by
  rw [length?_eq_none, List.eq_nil_iff_forall_not_mem]
  intro m hm
  have harrow : m ∈ (seq (char '-') (seq (char '-') (char '>'))).ends (0, s) := hm
  rw [ends, List.mem_flatMap] at harrow
  obtain ⟨a, ha, harrow⟩ := harrow
  rw [ends, List.mem_flatMap] at harrow
  obtain ⟨a', ha', harrow⟩ := harrow
  obtain ⟨d, hd, hsplit, _⟩ := mem_one ha
  obtain ⟨d', hd', hsplit', _⟩ := mem_one ha'
  obtain ⟨e, he, hsplit'', _⟩ := mem_one harrow
  rw [hsplit', hsplit'', beq_iff_eq.1 hd, beq_iff_eq.1 hd', beq_iff_eq.1 he] at hsplit
  have hangle := isNameChar_of_split h (x := ['-', '-']) hsplit (.of_not_mem (by decide))
    (by decide)
  exact absurd hangle (by decide)

/-- A settled text of names is no range of code points. -/
theorem codeRange_eq_none : codeRange.length? s = none := by
  rw [length?_eq_none, List.eq_nil_iff_forall_not_mem]
  intro m hm
  rw [codeRange, ends, List.mem_flatMap] at hm
  obtain ⟨a, ha, hm⟩ := hm
  rw [ends, List.mem_flatMap] at hm
  obtain ⟨a', ha', _⟩ := hm
  obtain ⟨d, hd, hsplit, _⟩ := mem_one ha
  obtain ⟨e, he, hsplit', _⟩ := mem_one ha'
  rw [hsplit', beq_iff_eq.1 he] at hsplit
  have hslash : d ≠ '\\' := by
    rintro rfl
    exact absurd hd (by decide)
  have hplus := isNameChar_of_split h (x := [d]) hsplit (.plain hslash trivial .nil) (by decide)
  exact absurd hplus (by decide)

/-- A settled text of names is no function. -/
theorem functionForm_eq_none : (seq identifier (char '(')).length? s = none := by
  rw [length?_eq_none, List.eq_nil_iff_forall_not_mem]
  intro m hm
  rw [ends, List.mem_flatMap] at hm
  obtain ⟨a, ha, hm⟩ := hm
  obtain ⟨taken, htaken, _⟩ := identifier.splits_of_mem_ends _ a ha
  obtain ⟨d, hd, hsplit, _⟩ := mem_one hm
  have hsettled := (only_isNameChar _ _ a ha taken htaken).mono fun _ _ => trivial
  rw [hsplit, beq_iff_eq.1 hd] at htaken
  exact absurd (isNameChar_of_split h htaken hsettled (by decide)) (by decide)

end

/-- A text that is an identifier as a whole is read as one. -/
theorem first_of_isIdentifier {name : String} (h : isIdentifier name = true) :
    first name.toList = (.ident, name.toList.length) := by
  obtain ⟨b, hb, hrest⟩ := exists_mem_ends_of_isIdentifier h
  have hname : Settled (fun c => isNameChar c = true) name.toList :=
    only_isNameChar _ _ b hb _ (by rw [hrest, List.append_nil])
  obtain ⟨c, rest, hcons, hc, hhyphen⟩ := start_of_identifier hb
  have hmatch := length?_identifier h
  rw [hcons] at hname hmatch ⊢
  have hhead : ∀ d, isNameChar d = false → d ≠ '\\' → c ≠ d := fun d => ne_of_cons hname rfl
  have hnumeral := numeral_eq_nil hc hhyphen (hhead '+' (by decide) (by decide)) 0
  have hurl := url_none_of_no_opening fun o ho => not_prefix_of_isOpening hname ho
  have htable : forms = forms.take 11 ++ (.ident, identifier) :: forms.drop 12 := rfl
  apply first_of_form htable hmatch
  simp only [forms, List.take_succ_cons, List.take_zero, List.forall_mem_cons]
  refine ⟨?_, ?_, ?_, arrow_eq_none hname, hurl.1, hurl.2, codeRange_eq_none hname, ?_, ?_, ?_,
    functionForm_eq_none hname, List.forall_mem_nil _⟩
  · apply commentForm_eq_none
    rintro ⟨more, hstart⟩
    exact hhead '/' (by decide) (by decide) (List.cons.inj hstart).1.symm
  · apply whitespace_eq_none
    rw [Bool.eq_false_iff]
    intro hspace
    have hall : ∀ d ∈ [' ', '\t', '\r', '\n', '\x0c'], (!isNameChar d && d != '\\') = true :=
      List.all_eq_true.1 (by decide)
    have hblank := hall c (mem_spaces hspace)
    rw [Bool.and_eq_true, Bool.not_eq_true', bne_iff_ne] at hblank
    exact hhead c hblank.1 hblank.2 rfl
  · rw [length?_eq_none]
    simp [literal, chars, char, ends, hhead '<' (by decide) (by decide)]
  · rw [length?_eq_none, ends, hnumeral]
    rfl
  · rw [length?_eq_none, ends, hnumeral]
    rfl
  · rw [length?_eq_none, hnumeral]

end Token

end Cssom
