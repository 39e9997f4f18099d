import Cssom.Proofs.Printing.Rule
import Cssom.Proofs.Token.Scan

/-!
# Names of animations

The name of an animation is printed as it is if it is an identifier, and as a string otherwise. What
decides this is one pattern, which has to take the whole name; what reads the print is the table of
all forms, of which eleven are tried before that of identifiers. The two agree: a text is an
identifier if and only if it is cut into just one token of that kind (`isIdentifier_iff_pieces`).
So a name stands in the print as it is exactly where it would be read as one identifier there
(`identifiers_are_one_token`).
-/

namespace Cssom

open Token Grammar

variable {text : String}

/-! ### Identifiers are one token -/

namespace Token

/-- A text is an identifier just if it is cut into one token, of that kind. -/
theorem isIdentifier_iff_pieces :
    isIdentifier text = true ↔ pieces text.toList = [(.ident, text)] := by
  constructor
  · intro h
    have hlexes := (legible_identifier h).lexes [] (Or.inl rfl)
    have hpieces := pieces_of_lexes hlexes
    rwa [spell_cons, spell_nil, List.append_nil, List.append_nil, pieces_nil,
      List.append_nil] at hpieces
  · intro h
    have hlexes := (lexes_pieces text.toList).1
    rw [h] at hlexes
    have hidentifier := isIdentifier_of_first hlexes.1
    rwa [String.ofList_toList] at hidentifier

/-- The tokens of a source that is one token of a kind: that token, from the first byte to the
last, and the end. -/
def onlyToken (kind : Kind) (text : String) (file : Option String) : List Token :=
  let stop := Position.ofBytes text.utf8ByteSize (file.getD Position.inlineFile)
  [⟨kind, text, .ofBytes 0 (file.getD Position.inlineFile), stop⟩, endAt stop]

/-- A single piece is placed from the first byte to the last, and the end behind it. -/
theorem place_onlyToken (kind : Kind) (file : Option String) :
    place (file.getD Position.inlineFile) 0 [(kind, text)] = onlyToken kind text file := by
  rw [place, place, Nat.zero_add]
  rfl

/-- A source has the tokens of one piece if and only if it is cut into that piece. -/
theorem scan_eq_onlyToken_iff {kind : Kind} (file : Option String) :
    scan text file = .ok (onlyToken kind text file) ↔ pieces text.toList = [(kind, text)] := by
  rw [scan_eq_tokenize, Except.ok.injEq, tokenize, ← place_onlyToken]
  constructor
  · intro h
    obtain ⟨ts, hplace, hts⟩ := place_eq (file.getD Position.inlineFile) 0 (pieces text.toList)
    obtain ⟨us, hplace', hus⟩ := place_eq (file.getD Position.inlineFile) 0 [(kind, text)]
    rw [hplace, hplace'] at h
    rw [← hts, ← hus, List.append_inj_left' h rfl]
  · exact fun h => by rw [h]

end Token

/-! ### Names in the print -/

/-- A string is longer than the text that it quotes. -/
theorem Text.stringLiteral_ne (s : String) : Text.stringLiteral s ≠ s := by
  have hlength (cs : List Char) : cs.length ≤ (Text.escapeQuotes cs).length := by
    induction cs with
    | nil => exact Nat.le_refl _
    | cons c rest ih =>
      rw [Text.escapeQuotes]
      split <;> simp only [List.length_cons] <;> omega
  intro h
  have hchars := congrArg (fun t : String => t.toList.length) h
  simp only [Text.stringLiteral, String.toList_ofList, List.cons_append, List.length_cons,
    List.length_append] at hchars
  have := hlength s.toList
  omega

/-- A name is printed as it stands just if it is an identifier. -/
theorem Rule.animationName_eq_iff :
    Rule.animationName text = text ↔ isIdentifier text = true := by
  rw [Rule.animationName]
  split
  · next h => exact iff_of_true rfl h
  · next h => exact iff_of_false (Text.stringLiteral_ne text) h

/-- The print of an animation whose name stands as it is. -/
def Rule.bareKeyframes (name : String) (frames : List Keyframe) : String :=
  "@keyframes " ++ name ++ " " ++ Rule.braced (frames.map Keyframe.render)

/-- An animation is printed with its name as it stands just if the name is an identifier. -/
theorem Rule.render_eq_bareKeyframes_iff (frames : List Keyframe) :
    (Rule.keyframes text frames).render = Rule.bareKeyframes text frames ↔
      isIdentifier text = true := by
  rw [← Rule.animationName_eq_iff, Rule.render, Rule.bareKeyframes]
  constructor
  · intro h
    have hchars := congrArg String.toList h
    simp only [String.toList_append] at hchars
    exact String.toList_inj.1 (List.append_cancel_left
      (List.append_cancel_right (List.append_cancel_right hchars)))
  · exact fun h => by rw [h]

/-- The pieces of such a print, up to the blocks of the animation. -/
def Rule.barePieces (name : String) : List Piece :=
  [keywordPiece .keyframes, blank, (.ident, name), blank]

/-- The print of an animation whose name stands as it is starts with the at-keyword, a blank, the
name, a blank and a brace. -/
theorem Rule.spell_barePieces (name : String) (frames : List Keyframe) :
    ∃ body, (Rule.bareKeyframes name frames).toList =
      spell (Rule.barePieces name) ++ '\x7b' :: body := by
  rw [Rule.bareKeyframes, Rule.braced]
  simp only [String.toList_append, List.append_assoc, Rule.barePieces, spell_cons, spell_nil,
    List.append_nil]
  exact ⟨_, rfl⟩

/-- In a print in which it stands as it is, a name is one token if and only if it is an
identifier. -/
theorem Rule.barePieces_prefix_iff (frames : List Keyframe) :
    Rule.barePieces text <+: pieces (Rule.bareKeyframes text frames).toList ↔
      isIdentifier text = true := by
  constructor
  · rintro ⟨rest, hrest⟩
    have hlexes := (lexes_pieces (Rule.bareKeyframes text frames).toList).1
    rw [← hrest] at hlexes
    have hidentifier := isIdentifier_of_first hlexes.2.2.1
    rwa [String.ofList_toList] at hidentifier
  · intro h
    obtain ⟨body, hprint⟩ := Rule.spell_barePieces text frames
    have hkeyword : Legible [keywordPiece .keyframes] := legible_keyword (by decide)
    have hname := (hkeyword.append_blank (legible_identifier h)).lexes (' ' :: '\x7b' :: body)
      (Or.inr (Or.inl ⟨' ', _, rfl, by decide⟩))
    have hlast : Lexes [blank] ('\x7b' :: body) :=
      ⟨first_blank fun c rest hcons => (List.cons.inj hcons).1 ▸ by decide, trivial⟩
    have hlexes : Lexes (Rule.barePieces text) ('\x7b' :: body) := lexes_append.2 ⟨hname, hlast⟩
    rw [hprint, pieces_of_lexes hlexes]
    exact List.prefix_append _ _

/-- A text is an identifier if and only if the tokens of the source that it is are one identifier
with the whole text, and the end. Just then it is printed as it is as the name of an animation; and
just then it would be read there as one identifier, between the at-keyword and the block. -/
theorem identifiers_are_one_token (text : String) (file : Option String) (frames : List Keyframe) :
    (isIdentifier text = true ↔
      Token.scan text file = .ok (Token.onlyToken .ident text file)) ∧
    ((Rule.keyframes text frames).render = Rule.bareKeyframes text frames ↔
      Token.scan text file = .ok (Token.onlyToken .ident text file)) ∧
    ((Rule.keyframes text frames).render = Rule.bareKeyframes text frames ↔
      Rule.barePieces text <+: pieces (Rule.bareKeyframes text frames).toList) := by
  rw [scan_eq_onlyToken_iff, ← isIdentifier_iff_pieces, Rule.render_eq_bareKeyframes_iff,
    Rule.barePieces_prefix_iff]
  exact ⟨Iff.rfl, Iff.rfl, Iff.rfl⟩

end Cssom
