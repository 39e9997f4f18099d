import Cssom.Proofs.Token.Spelling

/-!
# Texts that are read back wherever they stand

Pieces are *legible* if they start with a significant token and are read back before every text
that stands apart. What a source prints is (`Prints.legible`), and so is what is put together from
legible pieces with blanks between them, marks after them, and tokens that are read alike before
any text.
-/

namespace Cssom.Token

open Pattern

/-- The pieces are read back before whatever stands apart, and start with a significant token. -/
structure Legible (ps : List Piece) : Prop where
  head : ∃ p rest, ps = p :: rest ∧ p.1.isSignificant = true
  lexes : ∀ w, Apart w → Lexes ps w

/-- The token is read back before any text. -/
structure Alone (p : Piece) : Prop where
  significant : p.1.isSignificant = true
  first_eq : ∀ w, first (p.2.toList ++ w) = (p.1, p.2.toList.length)

variable {ps qs : List Piece} {p : Piece}

/-- A token that stands alone may stand before anything that is read back. -/
theorem Alone.lexes (h : Alone p) {w : List Char} (hps : Lexes ps w) : Lexes (p :: ps) w :=
  ⟨h.first_eq _, hps⟩

/-- What a source without escapes prints is legible. -/
theorem Prints.legible {src : List Piece} (h : Prints true src ps) (hplain : Plain src)
    (hne : ps ≠ []) : Legible ps := by
  refine ⟨?_, fun w hw => (h.follow hplain hw).1⟩
  cases h with
  | ends => exact absurd rfl hne
  | token hlead hk hsep =>
    rcases hsep with ⟨_, rfl⟩ | ⟨hfresh, _⟩
    · exact ⟨_, _, rfl, hk⟩
    · exact absurd hfresh (by decide)

namespace Legible

/-- Legible pieces start with a significant one, whatever follows them. -/
theorem head_append (h : Legible ps) (qs : List Piece) :
    ∃ p rest, ps ++ qs = p :: rest ∧ p.1.isSignificant = true := by
  obtain ⟨p, rest, rfl, hp⟩ := h.head
  exact ⟨p, rest ++ qs, rfl, hp⟩

/-- Legible pieces are not the empty text. -/
theorem spell_ne_nil (h : Legible ps) : spell ps ≠ [] := by
  obtain ⟨p, rest, rfl, _⟩ := h.head
  have hfirst := (h.lexes [] (Or.inl rfl)).1
  intro hnil
  rw [spell_cons, List.append_eq_nil_iff] at hnil
  exact ne_nil_of_first hfirst hnil.1

/-- Legible pieces are read back behind a blank. -/
theorem lexes_blank (h : Legible ps) {w : List Char} (hw : Apart w) : Lexes (blank :: ps) w := by
  obtain ⟨⟨k, t⟩, rest, rfl, hp⟩ := h.head
  exact Token.lexes_blank hp (h.lexes w hw)

/-- White space is read back before them. -/
theorem lexes_spaces (h : Legible ps) {gap : String} {c : Char} {rest : List Char}
    (hgap : gap.toList = c :: rest) (hspace : ∀ d ∈ c :: rest, isSpace d = true) {w : List Char}
    (hw : Apart w) : Lexes ((.whitespace, gap) :: ps) w := by
  obtain ⟨p, more, rfl, hp⟩ := h.head
  have hlexes := h.lexes w hw
  rw [List.forall_mem_cons] at hspace
  refine ⟨?_, hlexes⟩
  have hstop : (spell (p :: more) ++ w).takeWhile isSpace = [] := by
    rcases hnext : spell (p :: more) ++ w with _ | ⟨d, tail⟩
    · rfl
    · have hfirst := hlexes.1
      rw [← List.append_assoc, ← spell_cons, hnext] at hfirst
      rw [List.takeWhile_cons_of_neg]
      rw [not_space_of_first hfirst hp]
      exact Bool.false_ne_true
  show first (gap.toList ++ (spell (p :: more) ++ w)) = (.whitespace, gap.toList.length)
  rw [hgap, List.cons_append, first_space hspace.1, List.takeWhile_append_of_pos hspace.2, hstop,
    List.append_nil, List.length_cons, Nat.add_comm]

/-- One after the other, with a blank between them. -/
theorem append_blank (hp : Legible ps) (hq : Legible qs) : Legible (ps ++ blank :: qs) where
  head := hp.head_append _
  lexes w hw := by
    refine lexes_append.2 ⟨hp.lexes _ ?_, hq.lexes_blank hw⟩
    exact Or.inr (Or.inl ⟨' ', _, rfl, by decide⟩)

/-- One after the other, with white space between them. -/
theorem append_spaces (hp : Legible ps) (hq : Legible qs) {gap : String} {c : Char}
    {rest : List Char} (hgap : gap.toList = c :: rest) (hc : c ∈ [' ', '\n'])
    (hspace : ∀ d ∈ rest, isSpace d = true) : Legible (ps ++ (.whitespace, gap) :: qs) where
  head := hp.head_append _
  lexes w hw := by
    have hall : ∀ d ∈ [' ', '\n'], isSpace d = true ∧ d ∈ [' ', '\n', ',', ':', ';', ')'] := by
      simp [isSpace]
    have hspaces : ∀ d ∈ c :: rest, isSpace d = true :=
      List.forall_mem_cons.2 ⟨(hall c hc).1, hspace⟩
    refine lexes_append.2 ⟨hp.lexes _ ?_, hq.lexes_spaces hgap hspaces hw⟩
    refine Or.inr (Or.inl ⟨c, rest ++ (spell qs ++ w), ?_, (hall c hc).2⟩)
    rw [spell_cons, List.append_assoc, hgap, List.cons_append]

/-- A mark after them. -/
theorem append_mark (hp : Legible ps) {k : Kind} {t : String} (hm : Alone (k, t))
    (ht : t.toList.head?.any [',', ':', ';', ')'].contains = true) : Legible (ps ++ [(k, t)]) where
  head := hp.head_append _
  lexes w hw := by
    refine lexes_append.2 ⟨hp.lexes _ ?_, hm.lexes trivial⟩
    rcases hchars : t.toList with _ | ⟨c, rest⟩
    · rw [hchars] at ht
      exact absurd ht (by decide)
    · rw [hchars] at ht
      have hc : c ∈ [',', ':', ';', ')'] := List.contains_iff_mem.1 ht
      refine Or.inr (Or.inl ⟨c, rest ++ w, by simp [hchars], ?_⟩)
      exact List.mem_cons_of_mem _ (List.mem_cons_of_mem _ hc)

/-- A token that stands alone may stand before legible pieces. -/
theorem cons_alone (hm : Alone p) (hp : Legible ps) : Legible (p :: ps) where
  head := ⟨p, ps, rfl, hm.significant⟩
  lexes w hw := hm.lexes (hp.lexes w hw)

/-- A token that stands alone is legible. -/
theorem of_alone (hm : Alone p) : Legible [p] where
  head := ⟨p, [], rfl, hm.significant⟩
  lexes _ _ := hm.lexes trivial

/-- A token that holds no breaks and leaves no escape open, by itself. -/
theorem of_first {k : Kind} {t : String} (h : first t.toList = (k, t.toList.length))
    (hk : k.isSignificant = true) (hholds : holdsBreaks k = false)
    (hsettled : Settled (fun _ => True) t.toList) (hopen : ¬ IsOpening t.toList) :
    Legible [(k, t)] where
  head := ⟨(k, t), [], rfl, hk⟩
  lexes w hw := by
    refine ⟨?_, trivial⟩
    have hne : t.toList ≠ [] := ne_nil_of_first (s := []) (by rwa [List.append_nil])
    rw [spell_nil, List.nil_append]
    refine first_append_apart (r := []) (by rwa [List.append_nil]) (Nat.le_refl _) hne hsettled
      hholds hw fun o u ho hsplit => absurd ?_ hopen
    obtain ⟨c, rest, hcons⟩ := List.exists_cons_of_ne_nil hne
    rw [hcons] at h
    have hfour := (start_of_first h hholds).2.2.2 o ho (by
      rw [← hcons, hsplit]
      exact List.prefix_append _ _)
    have hsame : t.toList = o := by
      have hlen : u.length = 0 := by
        have := congrArg List.length hsplit
        rw [List.length_append, ho.length_eq, hcons, ← hfour.2] at this
        omega
      rw [hsplit, List.length_eq_zero_iff.1 hlen, List.append_nil]
    rw [hsame]
    exact ho

end Legible

/-! ### Small letters -/

/-- A piece in small letters. -/
def lowerPiece (p : Piece) : Piece :=
  (p.1, Text.lower p.2)

/-- Pieces in small letters spell the text in small letters. -/
theorem spell_lower (ps : List Piece) :
    spell (ps.map lowerPiece) = (spell ps).map Char.toLower := by
  induction ps with
  | nil => rfl
  | cons p ps ih =>
    rw [List.map_cons, spell_cons, spell_cons, ih, List.map_append]
    simp [lowerPiece]

/-- What is read back is read back in small letters too. -/
theorem Lexes.lower {w : List Char} (h : Lexes ps w) : Lexes (ps.map lowerPiece) w := by
  induction ps with
  | nil => trivial
  | cons p ps ih =>
    refine ⟨?_, ih h.2⟩
    have hlower : ((lowerPiece p).2.toList ++ (spell (ps.map lowerPiece) ++ w)).map Char.toLower =
        (p.2.toList ++ (spell ps ++ w)).map Char.toLower := by
      rw [spell_lower]
      simp only [lowerPiece, Text.toList_lower, List.map_append, Text.map_toLower_map_toLower]
    rw [← first_lower, hlower, first_lower, h.1]
    simp [lowerPiece]

/-- Legible pieces are legible in small letters. -/
theorem Legible.lower (h : Legible ps) : Legible (ps.map lowerPiece) where
  head := by
    obtain ⟨p, rest, rfl, hp⟩ := h.head
    exact ⟨lowerPiece p, rest.map lowerPiece, rfl, hp⟩
  lexes w hw := (h.lexes w hw).lower

/-! ### Strings -/

/-- A text as a string between double quotes. -/
def stringPiece (s : String) : Piece :=
  (.string, Text.stringLiteral s)

/-- A text without line ends is what may stand between quotes, once its quotes are escaped. -/
theorem stringBody_escapeQuotes {cs : List Char}
    (h : ∀ c ∈ cs, c ∉ ['\n', '\r', '\x0c']) : StringBody '"' (Text.escapeQuotes cs) := by
  induction cs with
  | nil => exact .nil
  | cons c cs ih =>
    rw [List.forall_mem_cons] at h
    rw [Text.escapeQuotes]
    split
    · exact .escaped (ih h.2)
    · next hc =>
      refine .plain ?_ (ih h.2)
      have hne := h.1
      simp only [List.mem_cons, List.not_mem_nil, or_false, not_or] at hne hc
      simp [hc, hne]

/-- A text without line breaks is read back as a string, before any text. -/
theorem alone_string {s : String} (h : ∀ c ∈ s.toList, c ∉ ['\n', '\r', '\x0c']) :
    Alone (stringPiece s) where
  significant := rfl
  first_eq w := by
    have hfirst := first_string (q := '"') rfl (stringBody_escapeQuotes h) w
    have hchars : (stringPiece s).2.toList = '"' :: (Text.escapeQuotes s.toList ++ ['"']) := by
      rw [stringPiece, Text.stringLiteral, String.toList_ofList, List.cons_append]
    rw [hchars, List.cons_append, List.append_assoc, List.singleton_append, hfirst]
    simp [stringPiece]

end Cssom.Token
