import Cssom.Proofs.Source.Line
import Cssom.Proofs.Token.Identifier
import Cssom.Token.Stretch
import Mathlib.Data.String.Basic

/-!
# Stretches of tokens can be cut out

Which bytes are cut out of a token depends on its kind alone, so it is the pattern of the kind that
has to make room for them. The one fact about bytes is that a stretch which covers a run of
characters can be cut out, and gives just these (`Stretch.Covers`). Around the name, the contents
and the address of a token stand characters of one byte each, a sigil, quotes or parentheses, and
every token of a source has them (`nameStretch_covers`, `contentsStretch_covers`,
`addressStretch_covers`). So no token is read out of range (`tokens_are_read_in_range`).
-/

namespace Cssom

open Source

/-! ### Stretches -/

namespace Text

namespace Stretch

variable {stretch : Stretch} {text : String} {part : List Char}

/-- The stretch holds these characters of a text: it leaves out what stands before them, counted
from the start, and what stands behind them, counted from the end. -/
def Covers (stretch : Stretch) (text : String) (part : List Char) : Prop :=
  ∃ before after, text.toList = before ++ part ++ after ∧ stretch.start = byteSize before ∧
    stretch.stop = text.utf8ByteSize - byteSize after

/-- All bytes of a text cover it. -/
theorem covers_all (text : String) : Covers ⟨0, text.utf8ByteSize⟩ text text.toList :=
  ⟨[], [], (List.append_nil _).symm, rfl, (Int.sub_zero _).symm⟩

/-- The bytes of characters at the start of a text stop between two of its characters. -/
theorem isValid_byteSize {before after : List Char} (h : text.toList = before ++ after) :
    String.Pos.Raw.IsValid text ⟨byteSize before⟩ := by
  refine String.Pos.Raw.isValid_iff_exists_append.2
    ⟨String.ofList before, String.ofList after, ?_, rfl⟩
  rw [← String.ofList_append, ← h, String.ofList_toList]

/-- Counted from the start, a stretch stops behind its own characters. -/
theorem stop_eq {before after : List Char} (htext : text.toList = before ++ part ++ after)
    (hstop : stretch.stop = text.utf8ByteSize - byteSize after) :
    stretch.stop = byteSize before + byteSize part := by
  have hsize : text.utf8ByteSize = byteSize before + byteSize part + byteSize after := by
    rw [← byteSize_toList, htext, byteSize_append, byteSize_append]
  omega

/-- A stretch that covers characters lies within the text. -/
theorem Covers.within (h : stretch.Covers text part) : stretch.Within text := by
  obtain ⟨before, after, htext, hstart, hstop⟩ := h
  have hstop' := stop_eq htext hstop
  refine ⟨by omega, by omega, by omega, ?_, ?_⟩
  · rw [hstart, Int.toNat_natCast]
    exact isValid_byteSize (htext.trans (List.append_assoc _ _ _))
  · rw [show stretch.stop.toNat = byteSize (before ++ part) by rw [byteSize_append]; omega]
    exact isValid_byteSize htext

/-- A stretch that covers characters cuts them out. -/
theorem Covers.cut?_eq (h : stretch.Covers text part) :
    stretch.cut? text = some (String.ofList part) := by
  rw [cut?, if_pos h.within]
  obtain ⟨before, after, htext, hstart, hstop⟩ := h
  have hstop' := stop_eq htext hstop
  have hcut := String.extract_of_valid before part after
  rw [← htext, String.ofList_toList, ← String.utf8ByteSize_ofList,
    ← String.utf8ByteSize_ofList] at hcut
  rw [hstart, Int.toNat_natCast,
    show stretch.stop.toNat = byteSize before + byteSize part by omega]
  exact congrArg some hcut

end Stretch

/-- The bytes before a character are those of the characters before its first occurrence. -/
theorem bytesBefore?_append {c : Char} {before : List Char} (h : c ∉ before) (rest : List Char) :
    bytesBefore? c (before ++ c :: rest) = some (byteSize before) := by
  induction before with
  | nil => simp [bytesBefore?]
  | cons d before ih =>
    rw [List.mem_cons, not_or] at h
    rw [List.cons_append, bytesBefore?, if_neg (Ne.symm h.1), ih h.2, Option.map_some,
      byteSize_cons]

end Text

namespace Token

open Text

variable {t : Token}

/-! ### Tokens of a text -/

/-- The token is the first of some text, or the end. -/
def IsLexed (t : Token) : Prop :=
  t.kind = .eof ∨ ∃ s, first (t.text.toList ++ s) = (t.kind, t.text.toList.length)

/-- The tokens of a source are lexed. -/
theorem isLexed_of_mem {source : String} {file : Option String} (ht : t ∈ tokenize source file) :
    t.IsLexed := by
  obtain ⟨ts, eof, htokens, heof, hpieces, _⟩ := tokenize_eq source file
  rw [htokens, List.mem_append, List.mem_singleton] at ht
  rcases ht with ht | rfl
  · have hpiece : (t.kind, t.text) ∈ pieces source.toList := hpieces ▸ List.mem_map_of_mem ht
    obtain ⟨before, after, hsplit⟩ := List.append_of_mem hpiece
    have hlexes := (lexes_pieces source.toList).1
    rw [hsplit, lexes_append] at hlexes
    exact .inr ⟨_, hlexes.2.1⟩
  · exact .inl heof

/-- A lexed token that is not the end is the first of some text. -/
theorem IsLexed.first_eq {k : Kind} (h : t.IsLexed) (hkind : t.kind = k) (hk : k ≠ .eof) :
    ∃ s, first (t.text.toList ++ s) = (k, t.text.toList.length) := by
  subst hkind
  exact h.resolve_left hk

/-! ### Each accessor -/

/-- The name stands behind the sigil or before the parenthesis. -/
theorem nameStretch_covers (h : t.IsLexed) : t.nameStretch.Covers t.text t.name.toList := by
  cases hkind : t.kind with
  | atKeyword =>
    obtain ⟨s, hfirst⟩ := h.first_eq hkind (by decide)
    obtain ⟨name, htext, _⟩ := name_of_atKeyword hfirst
    rw [nameStretch, Token.name, hkind, String.toList_ofList]
    exact ⟨['@'], [], by simp [htext], rfl, (Int.sub_zero _).symm⟩
  | hash =>
    obtain ⟨s, hfirst⟩ := h.first_eq hkind (by decide)
    obtain ⟨name, htext⟩ := sigil_of_hash hfirst
    rw [nameStretch, Token.name, hkind, String.toList_ofList]
    exact ⟨['#'], [], by simp [htext], rfl, (Int.sub_zero _).symm⟩
  | function =>
    obtain ⟨s, hfirst⟩ := h.first_eq hkind (by decide)
    obtain ⟨name, htext, _⟩ := name_of_function hfirst
    rw [nameStretch, Token.name, hkind, String.toList_ofList]
    exact ⟨[], ['('], by simp [htext], rfl, rfl⟩
  | _ =>
    rw [nameStretch, Token.name, hkind]
    exact Stretch.covers_all t.text

/-- A quote takes one byte. -/
theorem byteSize_quote {q : Char} (hq : isQuote q = true) : byteSize [q] = 1 := by
  rcases isQuote_iff.1 hq with rfl | rfl <;> rfl

/-- The contents of a string stand between its quotes, or behind the only one. -/
theorem contentsStretch_covers (h : t.IsLexed) :
    ∃ inner, t.contentsStretch.Covers t.text inner ∧
      t.contents = String.ofList (readEscapes inner) := by
  cases hkind : t.kind with
  | string =>
    obtain ⟨s, hfirst⟩ := h.first_eq hkind (by decide)
    obtain ⟨q, body, hq, _, htext⟩ := quotes_of_first hfirst
    rw [contentsStretch, contents, hkind]
    refine ⟨body, ⟨[q], [q], by simp [htext], ?_, ?_⟩, by simp [htext]⟩
    · rw [byteSize_quote hq]
      rfl
    · rw [byteSize_quote hq]
      rfl
  | badString =>
    obtain ⟨s, hfirst⟩ := h.first_eq hkind (by decide)
    obtain ⟨q, body, hq, htext⟩ := quote_of_badString hfirst
    rw [contentsStretch, contents, hkind]
    refine ⟨body, ⟨[q], [], by simp [htext], ?_, (Int.sub_zero _).symm⟩, by simp [htext]⟩
    rw [byteSize_quote hq]
    rfl
  | _ =>
    rw [contentsStretch, contents, hkind]
    exact ⟨t.text.toList, Stretch.covers_all t.text, rfl⟩

/-- The first parenthesis in an address is that of its opening. -/
theorem parens_of_url {t s : List Char} (h : first (t ++ s) = (.url, t.length)) :
    ∃ name inner, '(' ∉ name ∧ t = name ++ '(' :: (inner ++ [')']) := by
  obtain ⟨o, before, inner, after, ho, _, _, _, rfl⟩ := address_of_first h
  obtain ⟨name, rfl, hname⟩ := ho.eq_concat
  exact ⟨name, before ++ (inner ++ after), hname, List.append_assoc _ _ _⟩

/-- The address stands between the first parenthesis of its token and the last one. -/
theorem addressStretch_covers (h : t.IsLexed) (hkind : t.kind = .url) :
    ∃ inner, t.addressStretch.Covers t.text inner ∧
      t.address = String.ofList (readEscapes (trimEnd (trimStart inner))) := by
  obtain ⟨s, hfirst⟩ := h.first_eq hkind (by decide)
  obtain ⟨name, inner, hname, htext⟩ := parens_of_url hfirst
  refine ⟨inner, ⟨name ++ ['('], [')'], by simp [htext], ?_, ?_⟩, ?_⟩
  · rw [addressStretch, hkind, htext]
    simp only [bytesBefore?_append hname, byteSize_append]
    rfl
  · rw [addressStretch, hkind]
    rfl
  · rw [address, hkind, htext]
    simp only [afterParen_append hname, List.dropLast_concat]

/-- The name of a token is read in range. -/
theorem name_in_range (h : t.IsLexed) : t.nameStretch.Within t.text ∧ t.name? = some t.name := by
  have hcovers := nameStretch_covers h
  refine ⟨hcovers.within, ?_⟩
  rw [name?, hcovers.cut?_eq, String.ofList_toList]

/-- The contents of a token are read in range. -/
theorem contents_in_range (h : t.IsLexed) :
    t.contentsStretch.Within t.text ∧ t.contents? = some t.contents := by
  obtain ⟨inner, hcovers, hcontents⟩ := contentsStretch_covers h
  refine ⟨hcovers.within, ?_⟩
  rw [contents?, hcovers.cut?_eq, hcontents, Option.map_some, String.toList_ofList]

/-- The address of a token is read in range. -/
theorem address_in_range (h : t.IsLexed) :
    t.addressStretch.Within t.text ∧ t.address? = some t.address := by
  by_cases hkind : t.kind = .url
  · obtain ⟨inner, hcovers, haddress⟩ := addressStretch_covers h hkind
    refine ⟨hcovers.within, ?_⟩
    rw [address?, hkind, haddress]
    simp only [hcovers.cut?_eq, Option.map_some, trim, String.toList_ofList]
  · -- Any other token is read as a string is.
    have hstretch : t.addressStretch = t.contentsStretch := by
      unfold addressStretch
      split
      · next hurl => exact absurd hurl hkind
      · rfl
    have hread : t.address? = t.contents? ∧ t.address = t.contents := by
      unfold address? address
      split
      · next hurl => exact absurd hurl hkind
      · simp
    rw [hstretch, hread.1, hread.2]
    exact contents_in_range h

/-! ### What stands around -/

/-- The name in an at-keyword or a function is an identifier. -/
theorem isIdentifier_name (h : t.IsLexed) (hkind : t.kind = .atKeyword ∨ t.kind = .function) :
    isIdentifier t.name = true := by
  rcases hkind with hkind | hkind
  · obtain ⟨s, hfirst⟩ := h.first_eq hkind (by decide)
    obtain ⟨name, htext, hname⟩ := name_of_atKeyword hfirst
    rw [Token.name, hkind, htext]
    exact hname
  · obtain ⟨s, hfirst⟩ := h.first_eq hkind (by decide)
    obtain ⟨name, htext, hname⟩ := name_of_function hfirst
    rw [Token.name, hkind, htext]
    simpa only [List.dropLast_concat] using hname

/-- A string has two quotes of a kind at least, one at each end. -/
theorem quotes_of_string (h : t.IsLexed) (hkind : t.kind = .string) :
    2 ≤ t.text.utf8ByteSize ∧ ∃ q, isQuote q = true ∧ t.text.toList.head? = some q ∧
      t.text.toList.getLast? = some q := by
  obtain ⟨s, hfirst⟩ := h.first_eq hkind (by decide)
  obtain ⟨q, body, hq, _, htext⟩ := quotes_of_first hfirst
  refine ⟨?_, q, hq, by rw [htext, List.head?_cons], ?_⟩
  · have hlength := length_le_byteSize t.text.toList
    rw [byteSize_toList, htext, List.length_cons, List.length_append,
      List.length_singleton] at hlength
    omega
  · rw [htext, ← List.cons_append, List.getLast?_concat]

/-- A token of a source is read in range: the stretches that hold its name, its contents and its
address can be cut out of its text, and give what is read. The name of an at-keyword or a function
is an identifier; a string starts and ends with the same quote, and these are two; the first opening
parenthesis of an address stands before its last character, which closes it. -/
theorem tokens_are_read_in_range (source : String) (file : Option String) (t : Token)
    (ht : t ∈ tokenize source file) :
    (t.nameStretch.Within t.text ∧ t.name? = some t.name) ∧
    (t.contentsStretch.Within t.text ∧ t.contents? = some t.contents) ∧
    (t.addressStretch.Within t.text ∧ t.address? = some t.address) ∧
    (t.kind = .atKeyword ∨ t.kind = .function → isIdentifier t.name = true) ∧
    (t.kind = .string → 2 ≤ t.text.utf8ByteSize ∧ ∃ q, isQuote q = true ∧
      t.text.toList.head? = some q ∧ t.text.toList.getLast? = some q) ∧
    (t.kind = .url → ∃ before inner, t.text.toList = before ++ '(' :: (inner ++ [')']) ∧
      '(' ∉ before) := by
  have hlexed := isLexed_of_mem ht
  refine ⟨name_in_range hlexed, contents_in_range hlexed, address_in_range hlexed,
    isIdentifier_name hlexed, quotes_of_string hlexed, fun hkind => ?_⟩
  obtain ⟨s, hfirst⟩ := hlexed.first_eq hkind (by decide)
  obtain ⟨before, inner, hbefore, htext⟩ := parens_of_url hfirst
  exact ⟨before, inner, htext, hbefore⟩

/-- An address of one character that takes two bytes, between blanks. -/
theorem tokens_are_read_in_range_beyond_ascii :
    let t : Token := ⟨.url, "url( é )", .ofBytes 3 "style.css", .ofBytes 12 "style.css"⟩
    t ∈ tokenize "é url( é )" (some "style.css") ∧ t.addressStretch = ⟨4, 8⟩ ∧
      t.addressStretch.Within t.text ∧ t.address? = some "é" ∧
      ∃ before inner, t.text.toList = before ++ '(' :: (inner ++ [')']) ∧ '(' ∉ before := by
  have hmem : (⟨.url, "url( é )", .ofBytes 3 "style.css", .ofBytes 12 "style.css"⟩ : Token) ∈
      tokenize "é url( é )" (some "style.css") := by decide +kernel
  obtain ⟨_, _, haddress, _, _, hparens⟩ := tokens_are_read_in_range _ _ _ hmem
  exact ⟨hmem, by decide +kernel, haddress.1, haddress.2.trans (by decide +kernel), hparens rfl⟩

end Token

end Cssom
