import Cssom.Proofs.Value.Nesting

/-!
# Which values are accepted

A value is accepted just if the tokens up to its end are those of a value (`IsValue`) and at most a
mark of importance; then it ends there, with the texts of these tokens (`values_are_accepted`).
-/

namespace Cssom

open Production Token Grammar

/-- The tokens of a value: some at least, that nest, with no unfinished string and no spoiled
address among them, and without an exclamation mark outside of brackets. -/
structure IsValue (v : List Seen) : Prop where
  nonempty : v ≠ []
  nested : openBehind [] v = some []
  finished : ∀ seen ∈ v, seen.1.kind ≠ .badString ∧ seen.1.kind ≠ .badUrl
  unmarked : ∀ seen ∈ outermost [] v, seen.1.isMark '!' = false

/-- The four conditions on a value as a conjunction. -/
theorem isValue_iff {v : List Seen} : IsValue v ↔ v ≠ [] ∧ openBehind [] v = some [] ∧
    (∀ seen ∈ v, seen.1.kind ≠ .badString ∧ seen.1.kind ≠ .badUrl) ∧
    ∀ seen ∈ outermost [] v, seen.1.isMark '!' = false :=
  ⟨fun h => ⟨h.nonempty, h.nested, h.finished, h.unmarked⟩,
    fun ⟨hne, hnested, hfinished, hunmarked⟩ => ⟨hne, hnested, hfinished, hunmarked⟩⟩

instance (v : List Seen) : Decidable (IsValue v) :=
  decidable_of_iff _ isValue_iff.symm

/-- A token as it stands in a value, behind the first: a blank comes before it if trivia did. -/
def spacedWord (seen : Seen) : String :=
  (if seen.2.isOpen then " " else "") ++ seen.1.text

/-- The texts of tokens, with a single blank wherever trivia separates two of them. -/
def spacedText : List Seen → String
  | [] => ""
  | first :: more => first.1.text ++ String.join (more.map spacedWord)

/-- The tokens of a value, added to a text, follow it with their spacing. -/
theorem foldl_addToken_eq {text : String} {v : List Seen} (htext : text ≠ "")
    (hwords : ∀ seen ∈ v, seen.1.text ≠ "") :
    v.foldl addToken text = text ++ String.join (v.map spacedWord) := by
  induction v generalizing text with
  | nil => exact (String.append_empty).symm
  | cons seen v ih =>
    obtain ⟨hword, hmore⟩ := List.forall_mem_cons.1 hwords
    have hadded : addToken text seen = text ++ spacedWord seen := by
      have hempty : text.isEmpty = false := by
        rwa [Bool.eq_false_iff, Ne, String.isEmpty_iff]
      rw [addToken, hempty, Bool.not_false, Bool.and_true, spacedWord, String.append_assoc]
    have hne : addToken text seen ≠ "" := fun h => hword (String.append_eq_empty_iff.1 h).2
    rw [List.foldl_cons, ih hne hmore, hadded, List.map_cons, String.join_cons, String.append_assoc]

/-- The text of a value has a single blank wherever trivia stood. -/
theorem textOf_eq_spacedText {v : List Seen} (hwords : ∀ seen ∈ v, seen.1.text ≠ "") :
    textOf v = spacedText v := by
  rcases v with _ | ⟨first, more⟩
  · rfl
  obtain ⟨hfirst, hmore⟩ := List.forall_mem_cons.1 hwords
  have hadded : addToken "" first = first.1.text := by
    simp [addToken]
  rw [textOf, List.foldl_cons, hadded, foldl_addToken_eq hfirst hmore, spacedText]

namespace Grammar

variable {T : List Kind} {v marks more : List Seen} {important : Bool}

/-! ### Marks -/

/-- The tokens of a mark open and close nothing, and stand outside of brackets where it does. -/
theorem openBehind_mark (h : IsMark important marks) :
    openBehind [] marks = some [] ∧ outermost [] marks = marks := by
  cases h with
  | absent => exact ⟨rfl, rfl⟩
  | @present bang word hbang hword =>
    have hdelim : openAfter [] bang.1.kind = some [] := by rw [kind_of_isMark hbang]; rfl
    have hident : openAfter [] word.1.kind = some [] := by rw [kind_of_isWord hword]; rfl
    constructor
    · rw [openBehind_cons, hdelim, Option.bind_some, openBehind_cons, hident]
      rfl
    · simp [outermost, hdelim]

/-- A value and its mark come before the end of the value. -/
theorem untilEnd_value (hnests : NestsBefore T [] v) (hmark : IsMark important marks)
    (hkinds : ∀ seen ∈ marks, seen.1.kind ∉ T) (hmore : EndsHere T more) :
    untilEnd T [] (v ++ (marks ++ more)) = (v ++ marks, more) := by
  obtain ⟨hclosed, _, houter⟩ := nestsBefore_iff.1 hnests
  obtain ⟨hmarked, hmarks⟩ := openBehind_mark hmark
  rw [← List.append_assoc]
  refine untilEnd_of_nested ?_ ?_ hmore
  · rw [openBehind_append, hclosed, Option.bind_some, hmarked]
  · rw [forall_outermost_append hclosed, hmarks]
    exact ⟨fun seen hseen => (houter seen hseen).1, hkinds⟩

/-- What comes before the end of a value, if it is a value and its mark, nests and is followed by
what ends it. -/
theorem nests_of_untilEnd {ahead : List Seen} (hupcoming : (untilEnd T [] ahead).1 = v ++ marks)
    (hvalue : IsValue v) (hmark : IsMark important marks) : NestsBefore T [] v ∧
      (∀ seen ∈ marks, seen.1.kind ∉ T) ∧ ahead = v ++ (marks ++ (untilEnd T [] ahead).2) ∧
      EndsHere T (untilEnd T [] ahead).2 := by
  obtain ⟨hmarked, hmarks⟩ := openBehind_mark hmark
  have hclosed : openBehind [] (untilEnd T [] ahead).1 = some [] := by
    rw [hupcoming, openBehind_append, hvalue.nested, Option.bind_some, hmarked]
  obtain ⟨houter, hends⟩ := ends_untilEnd hclosed
  rw [hupcoming, forall_outermost_append hvalue.nested, hmarks] at houter
  refine ⟨nestsBefore_iff.2 ⟨hvalue.nested, hvalue.finished, fun seen hseen =>
    ⟨houter.1 seen hseen, hvalue.unmarked seen hseen⟩⟩, houter.2, ?_, hends rfl⟩
  rw [← List.append_assoc, ← hupcoming, untilEnd_append_eq]

/-! ### Ends -/

/-- Where the kind under the cursor ends a value, the tokens ahead do. -/
theorem endsHere_of_endsValue {input : Input} (h : EndsValue T input.view.kind) :
    EndsHere T input.seen := by
  intro seen hseen
  obtain ⟨more, hcons⟩ := List.head?_eq_some_iff.1 hseen
  rw [← Input.kind_of_seen hcons]
  exact List.contains_iff_mem.1 (h.resolve_left (Input.kind_ne_eof_of_seen hcons))

/-- Where the tokens ahead end a value, the kind under the cursor does. -/
theorem endsValue_of_endsHere {input : Input} (h : EndsHere T input.seen) :
    EndsValue T input.view.kind := by
  rcases hseen : input.seen with _ | ⟨seen, more⟩
  · exact Or.inl (Input.seen_eq_nil_iff.1 hseen)
  · rw [hseen] at h
    rw [Input.kind_of_seen hseen]
    exact Or.inr (List.contains_iff_mem.2 (h seen rfl))

/-- A value that was accepted is one, with the mark that it is told to have. -/
theorem value_accepted (hident : .ident ∉ T) {i : Input} : (value T).Yields i fun parsed _ =>
    parsed.valid = true → ∃ v marks, (untilEnd T [] i.seen).1 = v ++ marks ∧ IsValue v ∧
      IsMark parsed.important marks := by
  intro hvalid
  obtain ⟨v, marks, hseen, hne, hnests, hmark, hkinds, _⟩ := value_sound (i := i) hident hvalid
  obtain ⟨hnested, hfinished, houter⟩ := nestsBefore_iff.1 hnests
  refine ⟨v, marks, ?_, ⟨hne, hnested, hfinished, fun seen hmem => (houter seen hmem).2⟩, hmark⟩
  rw [hseen, untilEnd_value hnests hmark hkinds (endsHere_of_endsValue value_ends)]

/-- What is a value, perhaps with a mark, is read as that, up to its end. -/
theorem value_of_isValue {i : Input} (hworded : i.Worded)
    (hupcoming : (untilEnd T [] i.seen).1 = v ++ marks) (hvalue : IsValue v)
    (hmark : IsMark important marks) : (value T).Yields i fun parsed rest =>
      rest.seen = (untilEnd T [] i.seen).2 ∧ parsed = ⟨some ⟨spacedText v⟩, important, true⟩ := by
  obtain ⟨hnests, hkinds, hseen, hends⟩ := nests_of_untilEnd hupcoming hvalue hmark
  have hwords : ∀ seen ∈ v, seen.1.text ≠ "" := fun seen hmem =>
    hworded.seen_ne seen (hseen ▸ List.mem_append_left _ hmem)
  rw [← textOf_eq_spacedText hwords]
  exact value_complete hnests hvalue.nonempty hmark hkinds hworded hseen
    fun rest hrest => endsValue_of_endsHere (hrest ▸ hends)

end Grammar

/-- Wherever a parser stands, before tokens with texts, and whatever kinds end the value, but for
identifiers: a value is accepted just if the tokens up to its end are those of a value, or of one
and a mark of importance. Then it is marked as important just if they are, its text is that of the
tokens, and the parser stands before what ends the value. -/
theorem values_are_accepted (T : List Kind) (hident : .ident ∉ T) (s : Parser)
    (hworded : ∀ seen ∈ s.rest, seen.1.text ≠ "") :
    let parsed := ((value T).run s).1
    let after := ((value T).run s).2
    let upcoming := (untilEnd T [] s.rest).1
    let behind := (untilEnd T [] s.rest).2
    (parsed.valid = true ↔
      ∃ v important marks, upcoming = v ++ marks ∧ IsValue v ∧ IsMark important marks) ∧
    ∀ v important marks, upcoming = v ++ marks → IsValue v → IsMark important marks →
      parsed.important = important ∧ parsed.value = some ⟨spacedText v⟩ ∧ after.rest = behind := by
  intro parsed after upcoming behind
  have hworded : s.input.Worded := fun lexeme hlexeme =>
    hworded (lexeme.token, lexeme.spacing) (List.mem_map_of_mem hlexeme)
  have hread : ∀ v important marks, upcoming = v ++ marks → IsValue v → IsMark important marks →
      after.rest = behind ∧ parsed = ⟨some ⟨spacedText v⟩, important, true⟩ :=
    fun v important marks hupcoming hvalue hmark =>
      (value_of_isValue hworded hupcoming hvalue hmark).run
  refine ⟨⟨fun hvalid => ?_, ?_⟩, fun v important marks hupcoming hvalue hmark => ?_⟩
  · obtain ⟨v, marks, haccepted⟩ := (value_accepted hident).run (s := s) hvalid
    exact ⟨v, _, marks, haccepted⟩
  · rintro ⟨v, important, marks, hupcoming, hvalue, hmark⟩
    rw [(hread v important marks hupcoming hvalue hmark).2]
  · obtain ⟨hrest, hparsed⟩ := hread v important marks hupcoming hvalue hmark
    rw [hparsed]
    exact ⟨rfl, rfl, hrest⟩

/-- In the middle of a source: a comment between words, a semicolon and a mark in brackets, and a
mark of importance. -/
theorem values_are_accepted_marked :
    let source := "a: b/**/c (d; [!]) ! IMPORTANT; e"
    let s := (Parser.ofTokens (tokenize source none) .strict).advanceBy 2
    let parsed := ((value declarationEnd).run s).1
    let after := ((value declarationEnd).run s).2
    parsed.valid = true ∧ parsed.important = true ∧ parsed.value = some ⟨"b c (d; [!])"⟩ ∧
      after.rest.map (·.1.text) = [";", "e"] := by
  intro source s parsed after
  let upcoming := (untilEnd declarationEnd [] s.rest).1
  let v := upcoming.take 9
  have hupcoming : upcoming = v ++ [upcoming[9]!, upcoming[10]!] := by decide +kernel
  have hvalue : IsValue v := by decide +kernel
  have hmark : IsMark true [upcoming[9]!, upcoming[10]!] :=
    .present (by decide +kernel) (by decide +kernel)
  have htext : spacedText v = "b c (d; [!])" := by decide +kernel
  have hbehind : (untilEnd declarationEnd [] s.rest).2.map (·.1.text) = [";", "e"] := by
    decide +kernel
  obtain ⟨hvalid, hread⟩ := values_are_accepted declarationEnd (by decide) s (by decide +kernel)
  obtain ⟨himportant, hparsed, hrest⟩ := hread v true _ hupcoming hvalue hmark
  refine ⟨hvalid.2 ⟨v, true, _, hupcoming, hvalue, hmark⟩, himportant, ?_, ?_⟩
  · rw [hparsed, htext]
  · rw [hrest, hbehind]

end Cssom
