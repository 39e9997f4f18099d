import Cssom.Proofs.Token.Regular

/-!
# Tokens printed with single blanks

A value is printed with a blank wherever its source had trivia (`Respaces`). What is printed so is
read back, whatever escapes the source holds (`Respaces.legible`). Where the source calls a function
`url` the print must not hold an address. Whether an address stands behind its opening hangs on the
order of blanks and other characters only (`shutFrom`), so the source decides (`Respaces.shut`).
-/

namespace Cssom.Token

open Pattern

variable {t s : List Char} {k : Kind} {ps src lead : List Piece} {p : Piece} {fresh : Bool}
  {w : List Char}

/-! ### Where no address stands -/

/-- How far an address may have come among blanks: to the blanks before it, to what it holds, to the
blanks behind it; or no plain one can stand there. -/
inductive Stage where
  | before
  | inside
  | behind
  | gone
deriving DecidableEq

/-- The stage after a blank that separates tokens. -/
def Stage.space : Stage → Stage
  | before => before
  | inside | behind => behind
  | gone => gone

/-- The stage after a blank that does not. An address may hold it. -/
def Stage.other : Stage → Stage
  | before | inside => inside
  | behind | gone => gone

/-- The stage after a blank. -/
def Stage.next (stage : Stage) (c : Char) : Stage :=
  if isSpace c then stage.space else stage.other

/-- Whether no address goes on from a stage. The first character that is no blank decides. -/
def shutFrom : Stage → List Char → Bool
  | _, [] => true
  | stage, c :: s =>
    if Text.isBlank c then shutFrom (stage.next c) s
    else isQuote c || (c == ')' && stage == .gone)

variable {stage : Stage}

/-- No blank ends what an address holds. -/
theorem not_quote_of_blank {c : Char} (h : Text.isBlank c = true) :
    "\"'()\\".toList.contains c = false := by
  rw [Bool.eq_false_iff]
  intro hmem
  have hnone : ∀ d ∈ "\"'()\\".toList, (!Text.isBlank d) = true := List.all_eq_true.1 (by decide)
  have hother := hnone c (List.contains_iff_mem.1 hmem)
  rw [h] at hother
  exact absurd hother (by decide)

/-- Behind blanks, a closing parenthesis ends an address wherever one can. -/
theorem shutFrom_close (h : stage ≠ .gone) {blanks : List Char}
    (hblanks : ∀ c ∈ blanks, isSpace c = true) (s : List Char) :
    shutFrom stage (blanks ++ ')' :: s) = false := by
  induction blanks generalizing stage with
  | nil =>
    rw [List.nil_append, shutFrom, if_neg (by decide), beq_eq_false_iff_ne.2 h]
    decide
  | cons c blanks ih =>
    rw [List.forall_mem_cons] at hblanks
    rw [List.cons_append, shutFrom, if_pos (isBlank_of_isSpace hblanks.1)]
    refine ih ?_ hblanks.2
    rw [Stage.next, if_pos hblanks.1]
    cases stage <;> first | exact absurd rfl h | decide

/-- A plain address is not shut out. -/
theorem shutFrom_address (h : stage = .before ∨ stage = .inside) {inner after : List Char}
    (hinner : ∀ c ∈ inner, "\"'()\\ \t\r\n\x0c".toList.contains c = false)
    (hafter : ∀ c ∈ after, isSpace c = true) (s : List Char) :
    shutFrom stage (inner ++ (after ++ ')' :: s)) = false := by
  induction inner generalizing stage with
  | nil =>
    refine shutFrom_close ?_ hafter s
    rcases h with rfl | rfl <;> decide
  | cons c inner ih =>
    rw [List.forall_mem_cons] at hinner
    have hnot : ∀ d ∈ "\"'()\\ \t\r\n\x0c".toList, c ≠ d := by
      rintro d hd rfl
      rw [List.contains_iff_mem.2 hd] at hinner
      exact absurd hinner.1 (by decide)
    rw [List.cons_append, shutFrom]
    split
    · refine ih (Or.inr ?_) hinner.2
      have hspace : ¬ isSpace c = true := by
        intro hspace
        have hall : ∀ d ∈ [' ', '\t', '\r', '\n', '\x0c'],
            "\"'()\\ \t\r\n\x0c".toList.contains d = true := List.all_eq_true.1 (by decide)
        exact hnot c (List.contains_iff_mem.1 (hall c (mem_spaces hspace))) rfl
      rw [Stage.next, if_neg hspace]
      rcases h with rfl | rfl <;> rfl
    · rw [isQuote, beq_eq_false_iff_ne.2 (hnot '"' (by decide)),
        beq_eq_false_iff_ne.2 (hnot '\'' (by decide)), beq_eq_false_iff_ne.2 (hnot ')' (by decide))]
      rfl

/-- A spoiled address is not shut out. -/
theorem shutFrom_spoiled {before : List Char} {c : Char}
    (hbefore : ∀ d ∈ before, Text.isBlank d = true)
    (hc : ("\"')".toList.contains c || Text.isBlank c) = false) (s : List Char) :
    shutFrom stage (before ++ c :: s) = false := by
  induction before generalizing stage with
  | nil =>
    rw [Bool.or_eq_false_iff] at hc
    have hnot : ∀ d ∈ "\"')".toList, c ≠ d := by
      rintro d hd rfl
      rw [List.contains_iff_mem.2 hd] at hc
      exact absurd hc.1 (by decide)
    rw [List.nil_append, shutFrom, if_neg (by rw [hc.2]; decide), isQuote,
      beq_eq_false_iff_ne.2 (hnot '"' (by decide)), beq_eq_false_iff_ne.2 (hnot '\'' (by decide)),
      beq_eq_false_iff_ne.2 (hnot ')' (by decide))]
    rfl
  | cons d before ih =>
    rw [List.forall_mem_cons] at hbefore
    rw [List.cons_append, shutFrom, if_pos hbefore.1]
    exact ih hbefore.2

/-- Where no address goes on from its start, none stands. -/
theorem shut_of_shutFrom (h : shutFrom .before s = true) : Shut s := by
  intro o ho
  constructor
  · rw [length?_eq_none, List.eq_nil_iff_forall_not_mem]
    intro b hb
    obtain ⟨o', before, inner, after, ho', hbefore, hinner, hafter, hsplit, _⟩ := address_of_mem hb
    obtain ⟨rfl, rfl⟩ := List.append_inj hsplit (by rw [ho.length_eq, ho'.length_eq])
    have hskip : ∀ before : List Char, (∀ c ∈ before, isSpace c = true) →
        ∀ r, shutFrom .before (before ++ r) = shutFrom .before r := by
      intro before hbefore r
      induction before with
      | nil => rfl
      | cons c before ih =>
        rw [List.forall_mem_cons] at hbefore
        rw [List.cons_append, shutFrom, if_pos (isBlank_of_isSpace hbefore.1), Stage.next,
          if_pos hbefore.1, Stage.space, ih hbefore.2]
    rw [hskip before hbefore, shutFrom_address (Or.inl rfl) hinner hafter] at h
    exact absurd h (by decide)
  · rw [length?_eq_none, List.eq_nil_iff_forall_not_mem]
    intro b hb
    obtain ⟨o', before, c, inner, close, ho', hbefore, hc, _, _, hsplit, _⟩ := spoiled_of_mem hb
    obtain ⟨rfl, rfl⟩ := List.append_inj hsplit (by rw [ho.length_eq, ho'.length_eq])
    rw [shutFrom_spoiled hbefore hc] at h
    exact absurd h (by decide)

/-! ### What is shut -/

/-- What may stand between an opening and a closing parenthesis for them to be a plain address, if
the scan has come to a stage: blanks in their places around what the address holds. -/
def Stage.Admits : Stage → List Char → Prop
  | .before, s => ∃ before inner after, s = before ++ (inner ++ after) ∧
      (∀ c ∈ before, isSpace c = true) ∧ (∀ c ∈ inner, isSpace c = false) ∧
      ∀ c ∈ after, isSpace c = true
  | .inside, s => ∃ inner after, s = inner ++ after ∧ (∀ c ∈ inner, isSpace c = false) ∧
      ∀ c ∈ after, isSpace c = true
  | .behind, s => ∀ c ∈ s, isSpace c = true
  | .gone, _ => False

/-- What an address may hold from the next stage on, it may hold from here behind one character. -/
theorem Stage.Admits.cons {c : Char} {s : List Char} (h : (stage.next c).Admits s) :
    stage.Admits (c :: s) := by
  rcases hc : isSpace c
  · rw [Stage.next, if_neg (by rw [hc]; decide)] at h
    cases stage with
    | before =>
      obtain ⟨inner, after, rfl, hinner, hafter⟩ := h
      exact ⟨[], c :: inner, after, rfl, List.forall_mem_nil _,
        List.forall_mem_cons.2 ⟨hc, hinner⟩, hafter⟩
    | inside =>
      obtain ⟨inner, after, rfl, hinner, hafter⟩ := h
      exact ⟨c :: inner, after, rfl, List.forall_mem_cons.2 ⟨hc, hinner⟩, hafter⟩
    | behind => exact absurd h id
    | gone => exact absurd h id
  · rw [Stage.next, if_pos hc] at h
    cases stage with
    | before =>
      obtain ⟨before, inner, after, rfl, hbefore, hinner, hafter⟩ := h
      exact ⟨c :: before, inner, after, rfl, List.forall_mem_cons.2 ⟨hc, hbefore⟩, hinner, hafter⟩
    | inside => exact ⟨[], c :: s, rfl, List.forall_mem_nil _, List.forall_mem_cons.2 ⟨hc, h⟩⟩
    | behind => exact List.forall_mem_cons.2 ⟨hc, h⟩
    | gone => exact absurd h id

/-- If an address is not shut out, it is a plain one, or is spoiled by a character that is neither a
blank nor a quote. -/
theorem exists_of_shutFrom_eq_false (h : shutFrom stage s = false) :
    ∃ blanks c rest, s = blanks ++ c :: rest ∧ (∀ d ∈ blanks, Text.isBlank d = true) ∧
      (c = ')' ∧ stage.Admits blanks ∨ ("\"')".toList.contains c || Text.isBlank c) = false) := by
  induction s generalizing stage with
  | nil => exact absurd h (by simp [shutFrom])
  | cons c s ih =>
    rw [shutFrom] at h
    split at h
    · next hblank =>
      obtain ⟨blanks, d, rest, rfl, hblanks, hd⟩ := ih h
      refine ⟨c :: blanks, d, rest, rfl, List.forall_mem_cons.2 ⟨hblank, hblanks⟩, ?_⟩
      exact hd.imp_left fun hclose => ⟨hclose.1, hclose.2.cons⟩
    · next hblank =>
      rw [Bool.or_eq_false_iff] at h
      refine ⟨[], c, s, rfl, List.forall_mem_nil _, ?_⟩
      by_cases hclose : c = ')'
      · left
        refine ⟨hclose, ?_⟩
        rw [hclose, beq_self_eq_true, Bool.true_and, beq_eq_false_iff_ne] at h
        cases stage with
        | before => exact ⟨[], [], [], rfl, by simp⟩
        | inside => exact ⟨[], [], rfl, by simp⟩
        | behind => exact List.forall_mem_nil _
        | gone => exact absurd rfl h.2
      · right
        have hquote : ¬ (c = '"' ∨ c = '\'') := fun hq => by
          rw [isQuote_iff.2 hq] at h
          exact absurd h.1 (by decide)
        rw [not_or] at hquote
        simp [hquote, hclose, Bool.eq_false_iff.2 hblank]

/-- Behind an opening that is no address, all addresses are shut out. -/
theorem shutFrom_of_shut {o : List Char} (ho : IsOpening o)
    (h : plainUrl.length? (o ++ s) = none ∧ spoiledUrl.length? (o ++ s) = none) :
    shutFrom .before s = true := by
  rw [← Bool.not_eq_false]
  intro hfalse
  obtain ⟨blanks, c, rest, rfl, hblanks, ⟨rfl, hadmits⟩ | hc⟩ := exists_of_shutFrom_eq_false hfalse
  · obtain ⟨before, inner, after, rfl, hbefore, hinner, hafter⟩ := hadmits
    have hplain : ∀ c ∈ inner, "\"'()\\ \t\r\n\x0c".toList.contains c = false := by
      intro c hc
      have hquote := not_quote_of_blank
        (hblanks c (List.mem_append_right _ (List.mem_append_left _ hc)))
      have hspace := hinner c hc
      rw [isSpace, Bool.eq_false_iff, Ne, List.contains_iff_mem] at hspace
      rw [Bool.eq_false_iff, Ne, List.contains_iff_mem] at hquote ⊢
      intro hmem
      rcases List.mem_append.1 (show c ∈ "\"'()\\".toList ++ " \t\r\n\x0c".toList from hmem) with
        hmem | hmem
      · exact hquote hmem
      · exact hspace hmem
    refine plainUrl_of_parts ho hbefore hplain hafter rest ?_
    simpa using h.1
  · exact spoiledUrl_blanks ho hblanks hc rest h.2

/-! ### Shut out alike -/

/-- Texts that start alike shut out addresses alike, if what follows the blanks does. -/
theorem shutFrom_append {a b : List Char}
    (h : (∀ c ∈ t, Text.isBlank c = true) → ∀ stage, shutFrom stage a = true →
      shutFrom stage b = true) (ha : shutFrom stage (t ++ a) = true) :
    shutFrom stage (t ++ b) = true := by
  induction t generalizing stage with
  | nil => exact h (List.forall_mem_nil _) stage ha
  | cons c t ih =>
    rw [List.cons_append, shutFrom] at ha ⊢
    split
    · next hc =>
      rw [if_pos hc] at ha
      exact ih (fun ht => h (List.forall_mem_cons.2 ⟨hc, ht⟩)) ha
    · next hc =>
      rwa [if_neg hc] at ha

/-- One blank that separates tokens is as good as two. -/
theorem Stage.space_space (stage : Stage) : stage.space.space = stage.space := by
  cases stage <;> rfl

/-- A run of blanks that separate tokens is as good as one. -/
theorem shutFrom_spaces {c : Char} {s' : List Char} (hs : ∀ d ∈ c :: s', isSpace d = true)
    (r : List Char) : shutFrom stage (c :: s' ++ r) = shutFrom stage.space r := by
  have hnext : ∀ {stage : Stage} {d : Char} {r : List Char}, isSpace d = true →
      shutFrom stage (d :: r) = shutFrom stage.space r := by
    intro stage d r hd
    rw [shutFrom, if_pos (isBlank_of_isSpace hd), Stage.next, if_pos hd]
  rw [List.forall_mem_cons] at hs
  induction s' generalizing stage c with
  | nil => exact hnext hs.1
  | cons d s' ih =>
    rw [List.forall_mem_cons] at hs
    rw [List.cons_append, hnext hs.1, ih ⟨hs.2.1, hs.2.2⟩, Stage.space_space]

/-! ### Trivia -/

/-- White space consists of blanks that separate tokens. -/
theorem spaces_of_whitespace (h : first (t ++ s) = (.whitespace, t.length)) :
    ∀ c ∈ t, isSpace c = true := by
  obtain ⟨b, hb, hrest⟩ :=
    mem_ends_of_first (p := oneOrMore space) (by simp [forms]) (by decide) h
  rw [oneOrMore, ends, List.mem_flatMap] at hb
  obtain ⟨m, hm, hb⟩ := hb
  obtain ⟨c, hc, hsplit, _⟩ := mem_one hm
  obtain ⟨taken, htaken, _, hall⟩ := taken_of_mem_many hb
  rw [hrest] at htaken
  have ht : t = c :: taken :=
    List.append_cancel_right (show t ++ s = c :: taken ++ s by rw [hsplit, htaken]; rfl)
  rw [ht]
  exact List.forall_mem_cons.2 ⟨hc, hall⟩

/-- Trivia that are no blanks start with one of a few characters. -/
theorem head_of_trivia (h : first (t ++ s) = (k, t.length)) (hk : k.isSignificant = false)
    (hspace : k ≠ .whitespace) : ∃ c t', t = c :: t' ∧ c ∈ ['/', '<', '-'] := by
  cases k with
  | comment =>
    obtain ⟨c, t', rfl⟩ := List.exists_cons_of_ne_nil (ne_nil_of_first h)
    obtain ⟨b, hb, _⟩ := mem_ends_of_first (p := commentForm) (by simp [forms]) (by decide) h
    have hopens : ['/', '*'] <+: c :: (t' ++ s) := by
      by_contra hno
      rw [List.cons_append, length?_eq_none.1 (commentForm_eq_none hno)] at hb
      exact absurd hb List.not_mem_nil
    rw [← (List.cons_prefix_cons.1 hopens).1]
    exact ⟨'/', t', rfl, by decide⟩
  | cdo => exact ⟨'<', _, toList_of_spelling h rfl, by decide⟩
  | cdc => exact ⟨'-', _, toList_of_spelling h rfl, by decide⟩
  | whitespace => exact absurd rfl hspace
  | eof => exact absurd (congrArg Prod.fst h) (first_kind_ne_eof _)
  | _ => exact absurd hk (by decide)

/-- Trivia that start where no address is shut out are white space. -/
theorem whitespace_of_shutFrom (h : first (t ++ s) = (k, t.length)) (hk : k.isSignificant = false)
    (hshut : shutFrom stage (t ++ s) = true) : k = .whitespace := by
  by_contra hspace
  obtain ⟨c, t', rfl, hc⟩ := head_of_trivia h hk hspace
  have hall : ∀ c ∈ ['/', '<', '-'],
      Text.isBlank c = false ∧ isQuote c = false ∧ (c == ')') = false :=
    List.forall_mem_cons.2 ⟨by decide, List.forall_mem_cons.2
      ⟨by decide, List.forall_mem_singleton.2 (by decide)⟩⟩
  obtain ⟨hblank, hquote, hclose⟩ := hall c hc
  rw [List.cons_append, shutFrom, hblank, hquote, hclose] at hshut
  exact absurd hshut Bool.false_ne_true

/-- Trivia in which no address is shut out are blanks. -/
theorem shutFrom_trivia (hlead : ∀ q ∈ lead, q.1.isSignificant = false) (hlexes : Lexes lead s)
    (hne : lead ≠ []) (h : shutFrom stage (spell lead ++ s) = true) :
    shutFrom stage.space s = true := by
  induction lead generalizing stage with
  | nil => exact absurd rfl hne
  | cons q lead ih =>
    rw [List.forall_mem_cons] at hlead
    rw [spell_cons, List.append_assoc] at h
    have hfirst := hlexes.1
    rw [whitespace_of_shutFrom hlexes.1 hlead.1 h] at hfirst
    have hspaces := spaces_of_whitespace hfirst
    obtain ⟨c, t', ht⟩ := List.exists_cons_of_ne_nil (ne_nil_of_first hfirst)
    rw [ht] at h hspaces
    rw [shutFrom_spaces hspaces] at h
    by_cases hnil : lead = []
    · rw [hnil] at h
      exact h
    · have hnext := ih hlead.2 hlexes.2 hnil h
      rwa [Stage.space_space] at hnext

/-! ### Printing with single blanks -/

/-- What is printed before a token of a value: a blank where trivia stood, unless nothing was
printed yet. -/
def valueSeparator (fresh : Bool) (lead : List Piece) : List Piece :=
  if fresh || lead.isEmpty then [] else [blank]

/-- What is printed for trivia shuts out addresses if they do. -/
theorem shutFrom_separator (hlead : ∀ q ∈ lead, q.1.isSignificant = false) (hlexes : Lexes lead s)
    (h : shutFrom stage (spell lead ++ s) = true)
    (hw : ∀ stage, shutFrom stage s = true → shutFrom stage w = true) :
    shutFrom stage (spell (valueSeparator false lead) ++ w) = true := by
  rcases lead with _ | ⟨q, lead⟩
  · exact hw stage h
  · have hblank : shutFrom stage (spell [blank] ++ w) = shutFrom stage.space w :=
      @shutFrom_spaces stage ' ' [] (List.forall_mem_singleton.2 (by decide)) w
    exact hblank.trans (hw _ (shutFrom_trivia hlead hlexes (List.cons_ne_nil _ _) h))

/-- The second pieces are the first tokens of the first ones, printed with a blank wherever trivia
stood. Whoever prints a function prints a parenthesis that closes behind it. -/
inductive Respaces : Bool → List Piece → List Piece → Prop where
  | ends {fresh : Bool} {src : List Piece} : Respaces fresh src []
  | token {fresh : Bool} {lead src ps : List Piece} {k : Kind} {t : String}
      (hlead : ∀ p ∈ lead, p.1.isSignificant = false) (hk : k.isSignificant = true)
      (hstring : k ≠ .badString) (hurl : k ≠ .badUrl)
      (hclose : k = .function → ∃ t, (Kind.closeParen, t) ∈ ps) (more : Respaces false src ps) :
      Respaces fresh (lead ++ (k, t) :: src) (valueSeparator fresh lead ++ (k, t) :: ps)

namespace Respaces

/-- If the source shuts out addresses, so does a print that closes a parenthesis. -/
theorem shut (h : Respaces fresh src ps) (hfresh : fresh = false) (hregular : Regular src)
    (hclose : ∃ t, (Kind.closeParen, t) ∈ ps) (hsrc : shutFrom stage (spell src) = true) :
    shutFrom stage (spell ps ++ w) = true := by
  induction h generalizing stage with
  | ends => exact absurd hclose (by simp)
  | @token fresh lead src ps k t hlead hk hstring hurl _ more ih =>
    have htoken := hregular.of_append
    rw [hfresh, spell_append, spell_cons, List.append_assoc, List.append_assoc]
    rw [spell_append, spell_cons] at hsrc
    have hlexes : Lexes lead (t.toList ++ spell src) := by
      have hall := (lexes_append.1 hregular.lexes).1
      rwa [List.append_nil, spell_cons] at hall
    refine shutFrom_separator hlead hlexes hsrc fun stage hstage => ?_
    refine shutFrom_append (fun hblanks stage hmore => ?_) hstage
    -- a parenthesis decides, so one that closes is still to come
    refine ih rfl htoken.tail ?_ hmore
    obtain ⟨t', ht'⟩ := hclose
    rcases List.mem_append.1 ht' with hmem | hmem
    · rw [valueSeparator] at hmem
      split at hmem
      · exact absurd hmem List.not_mem_nil
      · exact absurd (List.mem_singleton.1 hmem) (by simp [blank])
    · rcases List.mem_cons.1 hmem with hpiece | hmem
      · rw [Prod.mk.injEq] at hpiece
        have hfirst := htoken.first_eq
        rw [show ((k, t) : Piece).1 = .closeParen from hpiece.1.symm] at hfirst
        rw [toList_of_spelling hfirst rfl] at hblanks
        exact absurd (hblanks ')' (by decide)) (by decide)
      · exact ⟨t', hmem⟩

/-- What is printed is read back before a text that stands apart, and agrees with the source until
it stands apart itself. -/
theorem follow (h : Respaces fresh src ps) (hregular : Regular src) (hw : Apart w) :
    Lexes ps w ∧ (fresh = false → Agrees (spell src) (spell ps ++ w)) := by
  induction h with
  | ends => exact ⟨trivial, fun _ => .of_apart hw⟩
  | @token fresh lead src ps k t hlead hk hstring hurl hclose more ih =>
    have htoken := hregular.of_append
    obtain ⟨hlexes, hagrees⟩ := ih htoken.tail
    have hsettled := htoken.settled_head hk hstring hurl
    have hfirst : first (t.toList ++ (spell ps ++ w)) = (k, t.toList.length) := by
      refine first_follow htoken.first_eq hsettled hk hstring (fun hk => absurd hk hurl) ?_
        (hagrees rfl)
      intro ho
      obtain ⟨hfunction, hnone⟩ := kind_of_opening ho htoken.first_eq
      exact shut_of_shutFrom
        (more.shut rfl htoken.tail (hclose hfunction) (shutFrom_of_shut ho hnone))
    have hhere : Lexes ((k, t) :: ps) w := ⟨hfirst, hlexes⟩
    rw [valueSeparator]
    split
    · next hempty =>
      refine ⟨hhere, fun hfresh => ?_⟩
      rw [hfresh, Bool.false_or, List.isEmpty_iff] at hempty
      have happend := (hagrees rfl).append hsettled
      simpa [hempty] using happend
    · exact ⟨lexes_blank hk hhere, fun _ => .of_apart (Or.inr (Or.inl ⟨' ', _, rfl, by decide⟩))⟩

/-- A regular source printed with other spacing is legible. -/
theorem legible (h : Respaces true src ps) (hregular : Regular src) (hne : ps ≠ []) :
    Legible ps := by
  refine ⟨?_, fun w hw => (h.follow hregular hw).1⟩
  cases h with
  | ends => exact absurd rfl hne
  | token _ hk => exact ⟨_, _, rfl, hk⟩

end Respaces

end Cssom.Token
