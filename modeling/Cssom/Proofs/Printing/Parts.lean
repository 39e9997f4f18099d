import Cssom.Proofs.Printing.Steps
import Cssom.Proofs.Token.Identifier
import Cssom.Proofs.Token.Regular
import Cssom.Rule.Render
import Mathlib.Data.List.TakeWhile

/-!
# The parts of a print

A print is put together from tokens of its source, from marks and words that are the same in every
print, and from quoted strings. Each of these is legible, and so is what is joined from legible
pieces by commas, by words or by blanks. What a token of a plain source stands for holds no line
break, so that it can be quoted.
-/

namespace Cssom

namespace Token

variable {ps qs : List Piece} {p : Piece} {src : List Piece}

/-! ### Marks -/

/-- A colon is a token wherever it stands. -/
theorem alone_colon : Alone (.colon, ":") := ⟨rfl, fun _ => rfl⟩

/-- A semicolon is a token wherever it stands. -/
theorem alone_semicolon : Alone (.semicolon, ";") := ⟨rfl, fun _ => rfl⟩

/-- A comma is a token wherever it stands. -/
theorem alone_comma : Alone (.comma, ",") := ⟨rfl, fun _ => rfl⟩

/-- An opening parenthesis is a token wherever it stands. -/
theorem alone_openParen : Alone (.openParen, "(") := ⟨rfl, fun _ => rfl⟩

/-- A closing parenthesis is a token wherever it stands. -/
theorem alone_closeParen : Alone (.closeParen, ")") := ⟨rfl, fun _ => rfl⟩

/-- An opening brace is a token wherever it stands. -/
theorem alone_openCurly : Alone (.openCurly, "\x7b") := ⟨rfl, fun _ => rfl⟩

/-- A closing brace is a token wherever it stands. -/
theorem alone_closeCurly : Alone (.closeCurly, "\x7d") := ⟨rfl, fun _ => rfl⟩

/-! ### Identifiers -/

/-- A text that is an identifier as a whole is read back as one. -/
theorem legible_identifier {name : String} (h : isIdentifier name = true) :
    Legible [(.ident, name)] := by
  have hfirst : first (name.toList ++ []) = (.ident, name.toList.length) := by
    rw [List.append_nil]
    exact first_of_isIdentifier h
  have hsettled := settled_of_first hfirst rfl (by decide) (by decide) (by simp)
  refine .of_first (first_of_isIdentifier h) rfl rfl hsettled fun ho => ?_
  exact absurd (kind_of_opening ho hfirst).1 (by decide)

/-- The word `and` is legible. -/
theorem legible_and : Legible [(.ident, "and")] :=
  legible_identifier (by decide)

/-- The word `not` is legible. -/
theorem legible_not : Legible [(.ident, "not")] :=
  legible_identifier (by decide)

/-- The word `only` is legible. -/
theorem legible_only : Legible [(.ident, "only")] :=
  legible_identifier (by decide)

/-! ### Quoted texts -/

/-- The text holds no line break. -/
def OneLine (s : String) : Prop :=
  ∀ c ∈ s.toList, c ∉ ['\n', '\r', '\x0c']

/-- A text of one line is a token wherever it stands in quotes. -/
theorem alone_stringLiteral {s : String} (h : OneLine s) : Alone (.string, Text.stringLiteral s) :=
  alone_string h

/-- A quoted text stands for the text. -/
theorem contents_stringLiteral {t : Token} {s : String} (hkind : t.kind = .string)
    (htext : t.text = Text.stringLiteral s) : t.contents = s := by
  have hchars : t.text.toList = '"' :: (Text.escapeQuotes s.toList ++ ['"']) := by
    rw [htext, Text.stringLiteral, String.toList_ofList, List.cons_append]
  rw [Token.contents, hkind, hchars]
  simp only [List.drop_one, List.tail_cons, List.dropLast_concat]
  rw [Text.readEscapes_escapeQuotes, String.ofList_toList]

/-- Where there is no backslash there is no escape to read. -/
theorem readEscapes_of_plain {cs : List Char} (h : '\\' ∉ cs) : Text.readEscapes cs = cs := by
  unfold Text.readEscapes
  induction cs with
  | nil => rfl
  | cons c cs ih =>
    rw [List.mem_cons, not_or] at h
    rw [Text.readEscapesFrom, if_neg (Ne.symm h.1), ih h.2]

/-- What stands in quotes and has no backslash holds no line break. -/
theorem oneLine_body {q : Char} {body : List Char} (h : StringBody q body) (hslash : '\\' ∉ body) :
    ∀ c ∈ body, c ∉ ['\n', '\r', '\x0c'] := by
  induction h with
  | nil => exact List.forall_mem_nil _
  | @plain c body hc _ ih =>
    rw [List.mem_cons, not_or] at hslash
    refine List.forall_mem_cons.2 ⟨?_, ih hslash.2⟩
    rw [Bool.or_eq_false_iff] at hc
    intro hmem
    have hall : ∀ c ∈ ['\n', '\r', '\x0c'], "\\\n\r\x0c".toList.contains c = true :=
      List.all_eq_true.1 (by decide)
    rw [hall c hmem] at hc
    exact absurd hc.2 (by decide)
  | escaped => exact absurd List.mem_cons_self hslash

/-- A string of a plain source stands for one line. -/
theorem oneLine_contents {t : Token} (h : Plain ((.string, t.text) :: src))
    (hkind : t.kind = .string) : OneLine t.contents := by
  obtain ⟨q, body, _, hbody, htext⟩ := quotes_of_first h.first_eq
  have hchars : t.text.toList = q :: (body ++ [q]) := htext
  have hslash : '\\' ∉ body := by
    intro hmem
    apply h.slash_head
    rw [htext]
    exact List.mem_cons_of_mem _ (List.mem_append_left _ hmem)
  have hcontents : t.contents.toList = body := by
    rw [Token.contents, hkind, hchars, String.toList_ofList]
    simp only [List.drop_one, List.tail_cons, List.dropLast_concat]
    exact readEscapes_of_plain hslash
  rw [OneLine, hcontents]
  exact oneLine_body hbody hslash

/-- Trimming leaves of a text between blanks a part of the text. -/
theorem mem_of_trimmed {before inner after : List Char}
    (hbefore : ∀ c ∈ before, Text.isBlank c = true)
    (hafter : ∀ c ∈ after, Text.isBlank c = true) {c : Char}
    (hc : c ∈ Text.trimEnd (Text.trimStart (before ++ (inner ++ after)))) : c ∈ inner := by
  rw [Text.trimStart, List.dropWhile_append_of_pos hbefore, List.dropWhile_append] at hc
  split at hc
  · have hnil : after.dropWhile Text.isBlank = [] := by
      rw [List.dropWhile_eq_nil_iff]
      exact hafter
    rw [hnil] at hc
    exact absurd hc List.not_mem_nil
  · rw [Text.trimEnd, List.reverse_append, List.dropWhile_append_of_pos, List.mem_reverse] at hc
    · have hkept := List.mem_reverse.1 ((List.dropWhile_sublist _).subset hc)
      exact (List.dropWhile_sublist _).subset hkept
    · intro d hd
      exact hafter d (List.mem_reverse.1 hd)

/-- An address of a plain source is one line. -/
theorem oneLine_address {t : Token} (h : Plain ((.url, t.text) :: src)) (hkind : t.kind = .url) :
    OneLine t.address := by
  obtain ⟨o, before, inner, after, ho, hbefore, hinner, hafter, htext⟩ :=
    address_of_first h.first_eq
  have hafterParen : Token.afterParen t.text.toList = before ++ (inner ++ after) ++ [')'] := by
    obtain ⟨name, rfl, hname⟩ := ho.eq_concat
    rw [htext, List.append_assoc, List.singleton_append, afterParen_append hname]
  have hslash : '\\' ∉ Text.trimEnd (Text.trimStart (before ++ (inner ++ after))) := by
    intro hmem
    have hmem := mem_of_trimmed (fun d hd => isBlank_of_isSpace (hbefore d hd))
      (fun d hd => isBlank_of_isSpace (hafter d hd)) hmem
    exact absurd (hinner _ hmem) (by decide)
  have hchars : t.address.toList = Text.trimEnd (Text.trimStart (before ++ (inner ++ after))) := by
    rw [Token.address, hkind]
    simp only [hafterParen, List.dropLast_concat]
    rw [readEscapes_of_plain hslash, String.toList_ofList]
  intro c hc hmem
  rw [hchars] at hc
  have hkept := mem_of_trimmed (fun d hd => isBlank_of_isSpace (hbefore d hd))
    (fun d hd => isBlank_of_isSpace (hafter d hd)) hc
  have hall : ∀ c ∈ ['\n', '\r', '\x0c'], "\"'()\\ \t\r\n\x0c".toList.contains c = true :=
    List.all_eq_true.1 (by decide)
  exact absurd ((hinner c hkept).symm.trans (hall c hmem)) (by decide)

/-! ### Joined pieces -/

/-- Whether legible pieces with these ones between them are legible. -/
def Separates (sep : List Piece) : Prop :=
  ∀ ps qs, Legible ps → Legible qs → Legible (ps ++ (sep ++ qs))

/-- A comma, as it is printed between the parts of a list. -/
def commaSeparator : List Piece :=
  [(.comma, ","), blank]

/-- A word, as it is printed between the parts of a chain. -/
def wordSeparator (word : String) : List Piece :=
  [blank, (.ident, word), blank]

/-- Commas separate legible pieces. -/
theorem separates_comma : Separates commaSeparator := by
  intro ps qs hps hqs
  have hcomma := (hps.append_mark alone_comma rfl).append_blank hqs
  rwa [List.append_assoc] at hcomma

/-- Words that are legible separate legible pieces. -/
theorem separates_word {word : String} (h : Legible [(.ident, word)]) :
    Separates (wordSeparator word) := by
  intro ps qs hps hqs
  have hword := (hps.append_blank h).append_blank hqs
  rwa [List.append_assoc] at hword

/-- Legible pieces are legible when they are joined by what separates such pieces. -/
theorem legible_join {sep : List Piece} (hsep : Separates sep) {pss : List (List Piece)}
    (h : ∀ ps ∈ pss, Legible ps) (hne : pss ≠ []) : Legible (sep.intercalate pss) := by
  induction pss with
  | nil => exact absurd rfl hne
  | cons ps pss ih =>
    rw [List.forall_mem_cons] at h
    rcases pss with _ | ⟨qs, pss⟩
    · rw [List.intercalate_singleton]
      exact h.1
    · rw [List.intercalate_cons_cons, List.append_assoc]
      exact hsep _ _ h.1 (ih h.2 (List.cons_ne_nil _ _))

/-- Joined pieces spell their texts, joined by the text of what is between them. -/
theorem spell_join (sep : List Piece) (pss : List (List Piece)) :
    spell (sep.intercalate pss) = (spell sep).intercalate (pss.map spell) := by
  induction pss with
  | nil => rfl
  | cons ps pss ih =>
    rcases pss with _ | ⟨qs, pss⟩
    · rw [List.map_singleton, List.intercalate_singleton, List.intercalate_singleton]
    · rw [List.map_cons] at ih
      rw [List.map_cons, List.map_cons, List.intercalate_cons_cons, List.intercalate_cons_cons,
        spell_append, spell_append, ih]

/-- What is joined is the first part, and each of the others behind a separator. -/
theorem join_cons (sep ps : List Piece) (pss : List (List Piece)) :
    sep.intercalate (ps :: pss) = ps ++ pss.flatMap (sep ++ ·) := by
  induction pss generalizing ps with
  | nil => simp
  | cons qs pss ih =>
    rw [List.intercalate_cons_cons, ih, List.flatMap_cons, List.append_assoc, List.append_assoc]

/-! ### Braces -/

/-- What stands between two braces, each part of it behind a blank. -/
def bracedPieces (pss : List (List Piece)) : List Piece :=
  (.openCurly, "\x7b") :: (pss.flatMap (blank :: ·) ++ [blank, (.closeCurly, "\x7d")])

/-- Legible pieces, each behind a blank, are read as they stand before what stands apart. -/
theorem lexes_blanks {pss : List (List Piece)} (h : ∀ ps ∈ pss, Legible ps) {w : List Char}
    (hw : Apart w) : Lexes (pss.flatMap (blank :: ·)) w := by
  induction pss with
  | nil => trivial
  | cons ps pss ih =>
    rw [List.forall_mem_cons] at h
    rw [List.flatMap_cons]
    refine lexes_append.2 ⟨h.1.lexes_blank ?_, ih h.2⟩
    rcases pss with _ | ⟨qs, pss⟩
    · exact hw
    · right
      left
      exact ⟨' ', _, rfl, by decide⟩

/-- Legible pieces in braces are legible. -/
theorem legible_braced {pss : List (List Piece)} (h : ∀ ps ∈ pss, Legible ps) :
    Legible (bracedPieces pss) where
  head := ⟨_, _, rfl, rfl⟩
  lexes w hw := by
    refine alone_openCurly.lexes (lexes_append.2 ⟨lexes_blanks h ?_, ?_⟩)
    · right
      left
      exact ⟨' ', _, rfl, by decide⟩
    · exact (Legible.of_alone alone_closeCurly).lexes_blank hw

/-- Pieces behind blanks spell their texts behind blanks. -/
theorem spell_blanks (pss : List (List Piece)) :
    spell (pss.flatMap (blank :: ·)) = (pss.map spell).flatMap (' ' :: ·) := by
  induction pss with
  | nil => rfl
  | cons ps pss ih =>
    rw [List.flatMap_cons, spell_append, ih, List.map_cons, List.flatMap_cons]
    rfl

/-- Texts between braces are spelled by their pieces. -/
theorem spell_braced {pss : List (List Piece)} {texts : List String}
    (h : pss.map spell = texts.map String.toList) :
    spell (bracedPieces pss) = (Rule.braced texts).toList := by
  rw [bracedPieces, spell_cons, spell_append, spell_blanks, h, Rule.braced]
  simp [String.toList_append, String.toList_join, List.flatMap_map, blank]

end Token

/-! ### Words ahead -/

namespace Input

open Token

variable {input : Input} {keyword : String} {placed : Prop}

/-- A word that is ahead is a keyword just if it has the same letters. -/
theorem isWord_of_ahead {t : String} {tail : List Piece}
    (h : input.Ahead ((.ident, t) :: tail) placed) :
    input.view.token.isWord keyword = Text.sameLetters t keyword := by
  have hkind : input.view.token.kind = .ident := h.kind
  rw [Token.isWord, hkind, h.text rfl]
  rfl

/-- What is no identifier is no word. -/
theorem isWord_of_kind (h : input.view.kind ≠ .ident) :
    input.view.token.isWord keyword = false := by
  have hkind : (input.view.token.kind == .ident) = false := beq_eq_false_iff_ne.2 h
  rw [Token.isWord, hkind, Bool.false_and]

/-- The case of letters does not matter for whether they are the same. -/
theorem sameLetters_lower (a b : String) :
    Text.sameLetters (Text.lower a) b = Text.sameLetters a b := by
  rw [Text.sameLetters, Text.lower_lower, Text.sameLetters]

/-- An identifier of a source is legible, also in small letters. -/
theorem legible_word (hregular : Regular input.pieces) (hkind : input.view.kind = .ident) :
    Legible [(.ident, input.view.token.text)] ∧
      Legible [(.ident, Text.lower input.view.token.text)] := by
  have hhere := regular_of_significant hregular (by rw [hkind]; rfl)
  have hpiece : input.view.token.piece = (.ident, input.view.token.text) := Prod.ext hkind rfl
  rw [hpiece] at hhere
  have hlegible := legible_of_regular hhere rfl rfl (by simp)
  exact ⟨hlegible, hlegible.lower⟩

end Input

/-- The pieces of several things are legible, and spell their texts. -/
theorem legible_of_forall₂ {α β : Type} {p : Nat → Production β} {starts : Token.Kind → Prop}
    {follows : α → Token.Kind → Prop} {f : α → β} {text : α → String} {as : List α}
    {pss : List (List Token.Piece)} {placed : Prop}
    (h : List.Forall₂ (fun a ps => ReadsAs p starts (follows a) (f a) (text a) ps placed) as pss) :
    (∀ ps ∈ pss, Token.Legible ps) ∧
      pss.map Token.spell = (as.map text).map String.toList := by
  induction h with
  | nil => exact ⟨List.forall_mem_nil _, rfl⟩
  | cons hps _ ih =>
    refine ⟨List.forall_mem_cons.2 ⟨hps.legible, ih.1⟩, ?_⟩
    rw [List.map_cons, List.map_cons, List.map_cons, hps.spell, ih.2]

end Cssom
