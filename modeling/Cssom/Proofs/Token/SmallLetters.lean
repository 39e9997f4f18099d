import Cssom.Proofs.Printing.Declaration
import Cssom.Proofs.Printing.Media
import Cssom.Proofs.Token.Scan

/-!
# Sources in small letters

A text in small letters is cut where the text is, into pieces of the same kinds (`pieces_lower`),
and a capital takes as many bytes as its small letter does; so its tokens are those of the text, in
the same places, with their texts in small letters (`scan_lower`). The names of properties and
features and the types of media are kept in small letters, or as they stood, and so lex as they did
in the source (`letter_case_is_not_lexed`).
-/

namespace Cssom

open Grammar

namespace Token

/-- The token in small letters, in its place. -/
def lowered (t : Token) : Token :=
  { t with text := Text.lower t.text }

/-! ### Pieces and their places -/

/-- The pieces of a text in small letters are its pieces in small letters. -/
theorem pieces_lower (s : List Char) :
    pieces (s.map Char.toLower) = (pieces s).map lowerPiece := by
  obtain ⟨hlexes, hspell⟩ := lexes_pieces s
  have hpieces := pieces_of_lexes hlexes.lower
  rwa [spell_lower, hspell, List.append_nil, pieces_nil, List.append_nil] at hpieces

/-- A capital takes as many bytes as its small letter. -/
theorem utf8Size_toLower (c : Char) : c.toLower.utf8Size = c.utf8Size :=
  Text.toLower_congr (f := Char.utf8Size) (by decide) c

/-- A text in small letters takes as many bytes. -/
theorem utf8ByteSize_lower (s : String) : (Text.lower s).utf8ByteSize = s.utf8ByteSize := by
  have hchars (cs : List Char) : (String.ofList (cs.map Char.toLower)).utf8ByteSize =
      (String.ofList cs).utf8ByteSize := by
    induction cs with
    | nil => rfl
    | cons c cs ih =>
      rw [List.map_cons, utf8ByteSize_ofList_cons, utf8ByteSize_ofList_cons, utf8Size_toLower, ih]
  rw [Text.lower, hchars, String.ofList_toList]

/-- Pieces in small letters are placed as the pieces are. -/
theorem place_lower (file : String) (offset : Nat) (ps : List Piece) :
    place file offset (ps.map lowerPiece) = (place file offset ps).map lowered := by
  induction ps generalizing offset with
  | nil => rfl
  | cons p ps ih =>
    have hsize : (lowerPiece p).2.utf8ByteSize = p.2.utf8ByteSize := utf8ByteSize_lower p.2
    rw [List.map_cons, place, place, List.map_cons, hsize, ih]
    rfl

/-! ### Tokens -/

/-- The tokens of a text in small letters are those of the text, in small letters. -/
theorem scan_lower (source : String) (file : Option String) :
    scan (Text.lower source) file = (scan source file).map (List.map lowered) := by
  rw [scan_eq_tokenize, scan_eq_tokenize, tokenize, tokenize, Text.toList_lower, pieces_lower,
    place_lower]
  rfl

/-- Texts that are the same in small letters have the same tokens, in small letters. -/
theorem scan_alike {s t : String} (h : Text.lower s = Text.lower t) (file : Option String) :
    (scan s file).map (List.map lowered) = (scan t file).map (List.map lowered) := by
  rw [← scan_lower, ← scan_lower, h]

end Token

/-! ### Names -/

/-- Whatever property a name stands for, its name is that name up to the case of letters. -/
theorem lower_name_propertyOf (config : Config) (set : BlockKind) (name : String) :
    Text.lower (propertyOf (.ofConfig config) set name).name = Text.lower name := by
  rcases (propertyOf_name config set name).1 with h | h
  · rw [h]
  · rw [h, Text.lower_lower]

open Production in
/-- Whatever features a medium is given, its type stays. -/
theorem typeName_featuresFrom (ctx : Context) (rounds : Nat) (medium : Medium) (input : Input) :
    ∀ m ∈ ((featuresFrom ctx rounds medium).read input).result, m.typeName = medium.typeName := by
  induction rounds generalizing medium input with
  | zero =>
    rintro m ⟨⟩
    rfl
  | succ rounds ih =>
    intro m hm
    rw [featuresFrom, result_read_bind, read_view] at hm
    split at hm
    · rw [result_read_bind, read_skip, result_read_bind] at hm
      split at hm
      · cases hm
      · exact (ih _ _ m hm :)
    · cases hm
      rfl

open Production in
/-- The type of a medium is the word it was read from, in small letters. -/
theorem typeName_typedMedium {ctx : Context} {reversed guarded : Bool} {input : Input} {m : Medium}
    (h : ((typedMedium ctx reversed guarded).read input).result = some m) :
    m.typeName = Text.lower input.view.token.text := by
  rw [typedMedium, result_read_bind, read_view] at h
  split at h
  · cases h
  · rw [result_read_bind, read_skip, features, result_read_bind, read_view] at h
    exact typeName_featuresFrom _ _ _ _ m h

/-- The tokens of a source in small letters are as many as those of the source, of the same kinds,
in the same places, and their texts are those of the source in small letters. So the name of the
property that a name stands for has the tokens of that name, up to the case of letters; and the name
of the feature that a name stands for, and the type of a medium that is read from a word, have them
in small letters. -/
theorem letter_case_is_not_lexed (config : Config) (file : Option String) :
    (∀ source, Token.scan (Text.lower source) file =
      (Token.scan source file).map (List.map Token.lowered)) ∧
    (∀ set name, (Token.scan (propertyOf (.ofConfig config) set name).name file).map
      (List.map Token.lowered) = (Token.scan name file).map (List.map Token.lowered)) ∧
    (∀ name, ∀ feature ∈ featureOf (.ofConfig config) name, Token.scan feature.name file =
      (Token.scan name file).map (List.map Token.lowered)) ∧
    (∀ reversed guarded input,
      ∀ medium ∈ ((typedMedium (.ofConfig config) reversed guarded).read input).result,
        Token.scan medium.typeName file =
          (Token.scan input.view.token.text file).map (List.map Token.lowered)) := by
  refine ⟨fun source => Token.scan_lower source file, fun set name => ?_,
    fun name feature hfeature => ?_, fun reversed guarded input medium hmedium => ?_⟩
  · exact Token.scan_alike (lower_name_propertyOf config set name) file
  · obtain ⟨rfl, -⟩ := featureOf_lower (Option.mem_def.1 hfeature)
    exact Token.scan_lower name file
  · rw [typeName_typedMedium (Option.mem_def.1 hmedium)]
    exact Token.scan_lower _ file

/-- A feature whose name holds an escape and a letter beyond ASCII, neither of which gets small. -/
theorem letter_case_is_not_lexed_in_escapes :
    featureOf (.ofConfig .tolerant) "-\\41 É-Url(" = some ⟨"-\\41 É-url(", none⟩ ∧
    Token.scan "-\\41 É-url(" none =
      (Token.scan "-\\41 É-Url(" none).map (List.map Token.lowered) := by
  have hfeature : featureOf (.ofConfig .tolerant) "-\\41 É-Url(" =
      some ⟨"-\\41 É-url(", none⟩ := by
    decide +kernel
  exact ⟨hfeature, (letter_case_is_not_lexed .tolerant none).2.2.1 _ _ hfeature⟩

end Cssom
