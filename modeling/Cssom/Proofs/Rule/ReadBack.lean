import Cssom.Proofs.Printing.Rule
import Cssom.Proofs.Printing.Sources

/-!
# Quoted arguments are read back

An encoding, an address, the name of an animation and what documents are named by are printed
between quotes, with quotes and backslashes escaped. Whatever text that is, if it is one line it is
read again; if not, no string stands in the print, since nothing escapes its line breaks
(`oneLine_of_string`), and nothing is read from the print at all (`Quotes.needs`). So a rule that
holds nothing but arguments is read back, or its print is a syntax error, and the line breaks decide
(`string_arguments_read_back`).
-/

namespace Cssom

namespace Token

variable {s : String} {w : List Char}

instance (s : String) : Decidable (OneLine s) :=
  List.decidableBAll _ s.toList

/-! ### Strings that are not closed -/

/-- A text that was quoted is one line, if what was made of it is what stands in a string. -/
theorem oneLine_of_stringBody {cs body r : List Char} (h : StringBody '"' body)
    (hsplit : Text.escapeQuotes cs ++ '"' :: w = body ++ '"' :: r) :
    ∀ c ∈ cs, c ∉ ['\n', '\r', '\x0c'] := by
  induction cs generalizing body with
  | nil => exact List.forall_mem_nil _
  | cons c cs ih =>
    rw [Text.escapeQuotes] at hsplit
    split at hsplit
    · next hc =>
      cases h with
      | nil => exact absurd (List.cons.inj hsplit).1 (by decide)
      | plain hd =>
        rw [← (List.cons.inj hsplit).1] at hd
        exact absurd hd (by decide)
      | escaped more =>
        obtain ⟨-, hsplit⟩ := List.cons.inj hsplit
        refine List.forall_mem_cons.2 ⟨?_, ih more (List.cons.inj hsplit).2⟩
        rcases hc with rfl | rfl <;> decide
    · next hc =>
      cases h with
      | nil => exact absurd (Or.inr (List.cons.inj hsplit).1) hc
      | plain hd more =>
        refine List.forall_mem_cons.2 ⟨fun hbreak => ?_, ih more (List.cons.inj hsplit).2⟩
        have hall : ∀ c ∈ ['\n', '\r', '\x0c'], "\\\n\r\x0c".toList.contains c = true :=
          List.all_eq_true.1 (by decide)
        rw [← (List.cons.inj hsplit).1, hall c hbreak, Bool.or_true] at hd
        exact Bool.false_ne_true hd.symm
      | escaped => exact absurd (Or.inl (List.cons.inj hsplit).1) hc

/-- A text in quotes starts with a quote, and ends with one behind its escapes. -/
theorem toList_stringLiteral (s : String) (w : List Char) :
    (Text.stringLiteral s).toList ++ w = '"' :: (Text.escapeQuotes s.toList ++ '"' :: w) := by
  rw [Text.stringLiteral, String.toList_ofList]
  simp

/-- What is printed between quotes starts with a string only if it is one line. -/
theorem oneLine_of_kind (h : (first ((Text.stringLiteral s).toList ++ w)).1 = .string) :
    OneLine s := by
  rw [toList_stringLiteral] at h
  rcases hfirst : first ('"' :: (Text.escapeQuotes s.toList ++ '"' :: w)) with ⟨kind, n⟩
  rw [hfirst] at h
  cases h
  obtain ⟨q, body, rest, _, hbody, hsplit, _⟩ := string_of_first hfirst
  rw [List.cons.injEq] at hsplit
  obtain ⟨rfl, hsplit⟩ := hsplit
  exact oneLine_of_stringBody hbody hsplit

/-- The text starts with no blank. -/
def Unspaced (w : List Char) : Prop :=
  ∀ c rest, w = c :: rest → isSpace c = false

/-- A character that is no blank starts a text that starts with none. -/
theorem unspaced_cons {c : Char} (h : isSpace c = false) (w : List Char) : Unspaced (c :: w) := by
  intro d rest hcons
  rwa [← (List.cons.inj hcons).1]

/-- A text in quotes starts with no blank. -/
theorem unspaced_stringLiteral (s : String) (w : List Char) :
    Unspaced ((Text.stringLiteral s).toList ++ w) := by
  rw [toList_stringLiteral]
  exact unspaced_cons rfl _

/-- An identifier starts with no blank. -/
theorem unspaced_identifier {name : String} (h : isIdentifier name = true) (w : List Char) :
    Unspaced (name.toList ++ w) := by
  have hfirst := first_of_isIdentifier h
  obtain ⟨c, rest, hcons⟩ := List.exists_cons_of_ne_nil
    (ne_nil_of_first (s := []) (by rwa [List.append_nil]))
  rw [hcons] at hfirst ⊢
  exact unspaced_cons (not_space_of_first hfirst rfl) _

/-- A function that names documents starts with no blank. -/
theorem unspaced_documentFunction (kind : DocumentFunction.Kind) (w : List Char) :
    Unspaced (kind.name.toList ++ w) := by
  cases kind with
  | url => exact unspaced_cons (c := 'u') rfl _
  | urlPrefix => exact unspaced_cons (c := 'u') rfl _
  | domain => exact unspaced_cons (c := 'd') rfl _
  | regexp => exact unspaced_cons (c := 'r') rfl _

/-- The kind that is seen of a text is that of its first token. -/
theorem headKind_pieces {k : Kind} (h : (first w).1 = k) (hk : k.isSignificant = true)
    (hne : w ≠ []) : headKind (pieces w) = k := by
  rw [← h] at hk
  rw [pieces_of_ne_nil hne, headKind_cons hk, h]

end Token

namespace Input

open Token

variable {j : Input} {s : String} {w : List Char} {ps : List Piece}

/-- The input holds the tokens of a text, and perhaps trivia before them. -/
def HoldsText (j : Input) (w : List Char) : Prop :=
  j.Ahead (Token.pieces w) False

namespace HoldsText

/-- What a text starts with is ahead, and then the rest of the text. -/
theorem ahead (h : j.HoldsText (spell ps ++ w)) (hlexes : Lexes ps w) :
    j.Ahead (ps ++ Token.pieces w) False := by
  rwa [HoldsText, pieces_of_lexes hlexes] at h

/-- Where a text starts that was put between quotes stands a string, or one that is not closed. -/
theorem kind_quoted (h : j.HoldsText ((Text.stringLiteral s).toList ++ w)) :
    (j.view.kind = .string ∧ OneLine s) ∨ j.view.kind = .badString := by
  have hchars := toList_stringLiteral s w
  have hne : (Text.stringLiteral s).toList ++ w ≠ [] := by
    rw [hchars]
    exact List.cons_ne_nil _ _
  have hfirst := @kind_first_quote '"' rfl (Text.escapeQuotes s.toList ++ '"' :: w)
  rw [← hchars] at hfirst
  rcases hfirst with hstring | hbad
  · have hkind := (Ahead.kind h).trans (headKind_pieces hstring rfl hne)
    exact Or.inl ⟨hkind, oneLine_of_kind hstring⟩
  · exact Or.inr ((Ahead.kind h).trans (headKind_pieces hbad rfl hne))

/-- A text in quotes that is read as a string is one line. -/
theorem oneLine (h : j.HoldsText ((Text.stringLiteral s).toList ++ w))
    (hkind : j.view.kind = .string) : OneLine s := by
  rcases h.kind_quoted with ⟨_, hline⟩ | hbad
  · exact hline
  · rw [hkind] at hbad
    exact absurd hbad (by decide)

/-- A function that names documents is ahead, and then its argument between quotes. -/
theorem documentFunction {kind : DocumentFunction.Kind}
    (h : j.HoldsText ((kind.name ++ "(").toList ++ ((Text.stringLiteral s).toList ++ w))) :
    j.view.kind = .function ∧ j.view.token.name = kind.name ∧
      j.advance.HoldsText ((Text.stringLiteral s).toList ++ w) := by
  have hlexes : Lexes [(.function, kind.name ++ "(")] ((Text.stringLiteral s).toList ++ w) := by
    rw [Lexes, spell_nil, List.nil_append]
    exact ⟨first_documentFunction kind (quoted_stringLiteral s w), trivial⟩
  have hspell : spell [(.function, kind.name ++ "(")] = (kind.name ++ "(").toList := by
    rw [spell_cons, spell_nil, List.append_nil]
  rw [← hspell] at h
  have hahead := h.ahead hlexes
  rw [List.singleton_append] at hahead
  have hkind : j.view.kind = .function := hahead.kind
  exact ⟨hkind, name_documentFunction kind hkind (hahead.text rfl), hahead.advance rfl⟩

end HoldsText

end Input

namespace Grammar

open Production Token Input

variable {config : Config} {ctx : Context} {i j : Input} {s : String} {w : List Char}

/-! ### Nothing is read behind a string that is not closed -/

/-- Of an address whose quotes hold more than a line nothing is read. -/
theorem quotedLocation_needs (h : j.HoldsText ((Text.stringLiteral s).toList ++ w)) :
    quotedLocation.Yields j fun result _ => ∀ a, result = some a → OneLine s := by
  unfold quotedLocation
  apply Yields.view
  split
  · next hkind => exact .any fun _ _ _ _ => h.oneLine hkind
  · exact Yields.bind_any fun _ _ _ => .none

/-- An address is read only if it was one line. -/
theorem location_needs
    (h : j.HoldsText ("url(".toList ++ ((Text.stringLiteral s).toList ++ w))) :
    location.Yields j fun result _ => ∀ a, result = some a → OneLine s := by
  obtain ⟨hkind, hname, hmore⟩ := @HoldsText.documentFunction j s w .url h
  unfold location
  apply Yields.view
  rw [hkind]
  simp only
  split
  · apply Yields.skip
    exact quotedLocation_needs hmore
  · exact .none

/-- If anything is read from a text, some strings are one line each. -/
def NeedsLines (p : Production (Option Rule)) (text : String) (quoted : List String) : Prop :=
  ∀ j : Input, j.HoldsText text.toList → p.Yields j fun result _ =>
    ∀ r, result = some r → ∀ s ∈ quoted, OneLine s

/-- Where nothing is quoted no lines are needed. -/
theorem NeedsLines.nil (p : Production (Option Rule)) (text : String) : NeedsLines p text [] :=
  fun _ _ => .any fun _ _ _ _ => List.forall_mem_nil _

/-- An encoding needs to be one line. -/
theorem charsetStatement_needs (encoding : String) :
    NeedsLines charsetStatement (charsetText encoding) [encoding] := by
  intro j h
  rw [charsetText, String.toList_append] at h
  unfold charsetStatement
  apply Yields.view
  split
  · next hkind => exact .any fun _ _ _ _ => List.forall_mem_singleton.2 (h.oneLine hkind)
  · exact abandonStatement_yields

/-- The address of an import needs to be one line. -/
theorem importStatement_needs (href : String) (media : MediaList) :
    NeedsLines (importStatement ctx) (importText href media) [href] := by
  intro j h
  rw [importText] at h
  simp only [String.toList_append, List.append_assoc] at h
  unfold importStatement
  apply Yields.bind (location_needs h)
  intro parsed rest _ hparsed
  rcases parsed with _ | address
  · exact abandonStatement_yields
  · exact .any fun _ _ _ _ => List.forall_mem_singleton.2 (hparsed address rfl)

/-- The pieces of a label are cut before an address. -/
theorem lexes_label {label : Option String} (h : IsLabel label)
    (hw : Unspaced w) : Lexes (labelPieces label) w := by
  rcases label with _ | name
  · trivial
  · have hapart : Apart (spell [blank] ++ w) := Or.inr (Or.inl ⟨' ', w, rfl, by decide⟩)
    exact ⟨((legible_identifier (h name rfl)).lexes _ hapart).1, first_blank hw, trivial⟩

/-- The address of a namespace needs to be one line. -/
theorem namespaceStatement_needs {label : Option String} (hlabel : IsLabel label) (uri : String) :
    NeedsLines namespaceStatement (namespaceText label uri) [uri] := by
  intro j h
  have htext : (namespaceText label uri).toList = spell (labelPieces label) ++
      ("url(".toList ++ ((Text.stringLiteral uri).toList ++ ");".toList)) := by
    rcases label with _ | name <;> simp [namespaceText, labelPieces, String.toList_append, blank]
  rw [htext] at h
  have hfirst := first_documentFunction .url (quoted_stringLiteral uri ");".toList)
  have hhead := headKind_pieces (congrArg Prod.fst hfirst) rfl (List.cons_ne_nil _ _)
  rw [namespaceStatement_eq]
  have hahead := h.ahead (lexes_label hlabel (unspaced_documentFunction .url _))
  apply Yields.bind (gives_namespaceLabel label hahead hhead).yields
  rintro _ rest _ ⟨rfl, hrest⟩
  unfold namespaceAddress
  apply Yields.bind (location_needs hrest)
  intro parsed rest' _ hparsed
  rcases parsed with _ | address
  · exact abandonStatement_yields
  · exact .any fun _ _ _ _ => List.forall_mem_singleton.2 (hparsed address rfl)

/-- A name in quotes needs to be one line. -/
theorem animationName_needs (h : j.HoldsText ((Text.stringLiteral s).toList ++ w)) :
    animationName.Yields j fun result _ => ∀ a, result = some a → OneLine s := by
  unfold animationName
  apply Yields.view
  rcases h.kind_quoted with ⟨_, hline⟩ | hbad
  · exact .any fun _ _ _ _ => hline
  · rw [hbad]
    exact .none

/-- The name of an animation that is no identifier needs to be one line. -/
theorem keyframesRule_needs {name : String} (hname : isIdentifier name = false)
    (frames : List Keyframe) :
    NeedsLines (keyframesRule ctx) (keyframesText name frames) [name] := by
  intro j h
  rw [keyframesText, Rule.animationName, hname, if_neg Bool.false_ne_true] at h
  simp only [String.toList_append, List.append_assoc] at h
  unfold keyframesRule
  apply Yields.bind (animationName_needs h)
  intro parsed rest _ hparsed
  rcases parsed with _ | read
  · exact .abandons
  · exact .any fun _ _ _ _ => List.forall_mem_singleton.2 (hparsed read rfl)

/-- A function that names documents is read only if its argument was one line. -/
theorem documentFunction_needs {f : DocumentFunction} (h : j.HoldsText (f.render.toList ++ w)) :
    documentFunction.Yields j fun result _ => ∀ a, result = some a → OneLine f.argument := by
  have htext : f.render.toList ++ w = (f.kind.name ++ "(").toList ++
      ((Text.stringLiteral f.argument).toList ++ (")".toList ++ w)) := by
    simp [DocumentFunction.render, String.toList_append]
  rw [htext] at h
  obtain ⟨hkind, _, hmore⟩ := h.documentFunction
  have hstring : documentString.Yields j.advance fun argument _ =>
      ∀ a, argument = some a → OneLine f.argument := by
    unfold documentString
    apply Yields.view
    split
    · next hkind => exact .any fun _ _ _ _ => hmore.oneLine hkind
    · exact .none
  unfold documentFunction
  apply Yields.view
  rw [hkind]
  simp only
  apply Yields.skip
  rw [documentArgument_eq]
  apply Yields.bind hstring
  intro argument rest _ hargument
  unfold documentArgumentEnd
  apply Yields.kind
  split
  · exact .any fun _ _ _ _ => hargument _ rfl
  · exact Yields.bind_any fun _ _ _ => .none

/-- The functions of a list, with commas between them, as text. -/
def functionsText (functions : List DocumentFunction) : List Char :=
  (String.intercalate ", " (functions.map DocumentFunction.render)).toList

/-- Functions are printed one by one, with commas between them. -/
theorem functionsText_cons (f g : DocumentFunction) (functions : List DocumentFunction) :
    functionsText (f :: g :: functions) =
      f.render.toList ++ (", ".toList ++ functionsText (g :: functions)) := by
  simp [functionsText, String.toList_intercalate]

/-- A single function is printed as it is. -/
theorem functionsText_singleton (f : DocumentFunction) : functionsText [f] = f.render.toList := by
  simp [functionsText]

/-- What is printed of functions starts with the first of them. -/
theorem functionsText_append (f : DocumentFunction) (functions : List DocumentFunction)
    (w : List Char) : ∃ w', functionsText (f :: functions) ++ w = f.render.toList ++ w' := by
  rcases functions with _ | ⟨g, functions⟩
  · exact ⟨w, by rw [functionsText_singleton]⟩
  · exact ⟨_, by rw [functionsText_cons, List.append_assoc]⟩

/-- Functions start with no blank. -/
theorem unspaced_functionsText (f : DocumentFunction) (functions : List DocumentFunction) :
    Unspaced (functionsText (f :: functions) ++ w) := by
  obtain ⟨w', hw'⟩ := functionsText_append f functions w
  rw [hw', DocumentFunction.render]
  simp only [String.toList_append, List.append_assoc]
  exact unspaced_documentFunction f.kind _

/-- Functions that name documents are read only if each of their arguments was one line. -/
theorem functions_need {functions : List DocumentFunction} (rounds : Nat)
    (before : List DocumentFunction) (h : j.HoldsText (functionsText functions ++ w))
    (hsize : j.size < rounds) :
    (separatedFrom documentFunction rounds before).Yields j fun result _ =>
      ∀ a, result = some a → ∀ f ∈ functions, OneLine f.argument := by
  induction functions generalizing rounds before j with
  | nil => exact .any fun _ _ _ _ => List.forall_mem_nil _
  | cons f functions ih =>
    obtain ⟨n, rfl⟩ : ∃ n, rounds = n + 1 := ⟨rounds - 1, by omega⟩
    by_cases hline : OneLine f.argument
    · rcases functions with _ | ⟨g, functions⟩
      · exact .any fun _ _ _ _ => List.forall_mem_singleton.2 hline
      · obtain ⟨ps, hps⟩ := @functionReadsBack_of_oneLine False f hline
        have hcomma : Apart (spell commaSeparator ++ (functionsText (g :: functions) ++ w)) :=
          Or.inr (Or.inl ⟨',', _, rfl, by decide⟩)
        have hlexes : Lexes (ps ++ commaSeparator) (functionsText (g :: functions) ++ w) :=
          lexes_append.2 ⟨hps.legible.lexes _ hcomma,
            alone_comma.lexes ⟨first_blank (unspaced_functionsText g functions), trivial⟩⟩
        rw [functionsText_cons, ← hps.spell, List.append_assoc, List.append_assoc,
          ← List.append_assoc, show ", ".toList = spell commaSeparator from rfl,
          ← spell_append] at h
        have hahead := h.ahead hlexes
        rw [List.append_assoc] at hahead
        unfold separatedFrom
        apply Yields.bind (hps.gives (j.size + 1) j _ hahead trivial (Nat.lt_succ_self _)).yields
        rintro _ rest hreach ⟨rfl, hrest⟩
        have hrest : rest.Ahead ((.comma, ",") :: blank ::
          Token.pieces (functionsText (g :: functions) ++ w)) False := hrest
        have hle := hreach.size_le
        have hlt := hrest.size rfl
        apply Yields.kind
        rw [hrest.kind, headKind_cons rfl, if_pos rfl]
        apply Yields.skip
        have hlater := ih n (before ++ [f]) ((hrest.advance rfl).tail rfl) (by omega)
        exact hlater.mono fun _ _ hall a ha => List.forall_mem_cons.2 ⟨hline, hall a ha⟩
    · obtain ⟨w', hw'⟩ := functionsText_append f functions w
      rw [hw'] at h
      unfold separatedFrom
      apply Yields.bind (documentFunction_needs h)
      intro parsed rest _ hparsed
      rcases parsed with _ | next
      · exact .none
      · exact absurd (hparsed next rfl) hline

/-- The arguments of functions that name documents need to be one line each. -/
theorem documentRule_needs (rule : Production (Option Rule)) (functions : List DocumentFunction)
    (rules : List Rule) : NeedsLines (documentRule rule) (documentText functions rules)
      (functions.map DocumentFunction.argument) := by
  intro j h
  rw [documentText] at h
  simp only [String.toList_append, List.append_assoc] at h
  unfold documentRule
  apply Yields.view
  rw [documentFunctionsFrom_eq]
  apply Yields.bind (functions_need _ [] h (Nat.lt_succ_self _))
  intro parsed rest _ hparsed
  rcases parsed with _ | read
  · exact .abandons
  · exact .any fun _ _ _ _ => List.forall_mem_map.2 (hparsed read rfl)

/-- What is read behind an at-keyword is read from the print of the whole rule. -/
theorem rule_needs {keyword : AtKeyword} (hknown : keyword ≠ .unknown) {text : String}
    {quoted : List String} (hstart : Unspaced text.toList)
    (h : ∀ depth, NeedsLines (keywordRule ctx (ruleWithin ctx depth) keyword) text quoted) :
    NeedsLines (rule ctx) (keywordPrefix keyword ++ text) quoted := by
  intro j hj
  have hlexes : Lexes [keywordPiece keyword, blank] text.toList :=
    ⟨((legible_keyword hknown).lexes (' ' :: text.toList)
      (Or.inr (Or.inl ⟨' ', _, rfl, by decide⟩))).1, first_blank hstart, trivial⟩
  have htext : (keywordPrefix keyword ++ text).toList =
      spell [keywordPiece keyword, blank] ++ text.toList := by
    simp [keywordPrefix, keywordPiece, blank, String.toList_append]
  rw [htext] at hj
  have hahead := hj.ahead hlexes
  have hkind : j.view.kind = .atKeyword := hahead.kind
  have hkeyword := ofName_printedName hkind (hahead.text rfl)
  unfold rule
  apply Yields.view
  exact (h _ j.advance ((hahead.advance rfl).tail rfl)).congr
    (readsKeyword_ruleWithin hknown _ j hkind hkeyword)

/-! ### Labels and functions of what was read -/

/-- The label of a namespace, if there is one, is an identifier, and there are functions that name
documents. Of whatever rule was read that holds. -/
def IsNamed : Rule → Prop
  | .namespaceRule label _ => IsLabel label
  | .document functions _ => functions ≠ []
  | _ => True

/-- So it is, and the name of the rule is known. -/
def IsKnown : Rule → Prop
  | .unknown _ => False
  | r => IsNamed r

/-- What was read, if anything, is named so. -/
def YieldsNamed (p : Production (Option Rule)) (i : Input) : Prop :=
  p.Yields i fun result _ => ∀ r, result = some r → IsNamed r

/-- What was read, if anything, has a known name. -/
def YieldsKnown (p : Production (Option Rule)) (i : Input) : Prop :=
  p.Yields i fun result _ => ∀ r, result = some r → IsKnown r

/-- What is made of something that was read is named if whatever is made is. -/
theorem map_known {α : Type} {p : Production (Option α)} {make : α → Rule}
    (h : ∀ a, IsKnown (make a)) : YieldsKnown (p >>= fun a => pure (a.map make)) i := by
  apply Yields.bind_any
  intro a _ _
  rcases a with _ | a
  · exact .none
  · exact .some (h a)

/-- A rule for media has a known name. -/
theorem mediaRule_known (rule : Production (Option Rule)) : YieldsKnown (mediaRule ctx rule) i := by
  unfold mediaRule mediaBlock
  apply Yields.bind_any
  intro list rest _
  apply Yields.view
  split
  · apply Yields.skip
    apply Yields.bind_any
    intro _ _ _
    apply Yields.bind_any
    intro _ _ _
    exact .some trivial
  · apply Yields.bind_any
    intro _ _ _
    apply Yields.skip
    exact .none
  · apply Yields.bind_any
    intro _ _ _
    exact .some trivial

/-- An animation has a known name. -/
theorem keyframesRule_known : YieldsKnown (keyframesRule ctx) i := by
  unfold keyframesRule
  apply Yields.bind_any
  intro parsed _ _
  rcases parsed with _ | name
  · exact .abandons
  · apply Yields.bind_any
    intro opened _ _
    split
    · apply Yields.bind_any
      intro _ _ _
      apply Yields.bind_any
      intro _ _ _
      exact .some trivial
    · exact .none

/-- An import has a known name. -/
theorem importStatement_known : YieldsKnown (importStatement ctx) i := by
  unfold importStatement
  apply Yields.bind_any
  intro parsed _ _
  rcases parsed with _ | href
  · exact abandonStatement_yields
  · apply Yields.bind_any
    intro _ _ _
    apply Yields.bind_any
    intro _ _ _
    exact .some trivial

/-- An encoding has a known name. -/
theorem charsetStatement_known : YieldsKnown charsetStatement i := by
  unfold charsetStatement
  apply Yields.view
  split
  · apply Yields.skip
    apply Yields.bind_any
    intro _ _ _
    exact .some trivial
  · exact abandonStatement_yields

/-- A namespace has a known name, and its label is an identifier. -/
theorem namespaceStatement_known (hlexes : Lexes i.pieces []) :
    YieldsKnown namespaceStatement i := by
  unfold YieldsKnown
  rw [namespaceStatement_eq]
  apply Yields.bind (namespaceLabel_isLabel hlexes)
  intro label _ _ hlabel
  unfold namespaceAddress
  apply Yields.bind_any
  intro parsed _ _
  rcases parsed with _ | uri
  · exact abandonStatement_yields
  · apply Yields.bind_any
    intro _ _ _
    exact .some hlabel

/-- A rule with a condition has a known name. -/
theorem supportsRule_known (rule : Production (Option Rule)) :
    YieldsKnown (supportsRule ctx rule) i := by
  unfold supportsRule
  apply Yields.bind_any
  intro parsed _ _
  rcases parsed with _ | condition
  · exact .abandons
  · exact map_known fun _ => trivial

/-- A rule for documents has a known name, and names some documents. -/
theorem documentRule_known (rule : Production (Option Rule)) :
    YieldsKnown (documentRule rule) i := by
  unfold documentRule
  apply Yields.view
  rw [documentFunctionsFrom_eq]
  have hfunctions := @separatedFrom_yields _ documentFunction i (fun _ => True) (fun _ => True)
    (fun _ _ _ _ => trivial) (fun _ _ => .any fun _ _ _ _ => trivial) (i.view.size + 1) []
    trivial (List.forall_mem_nil _)
  apply Yields.bind hfunctions
  intro parsed _ _ hparsed
  rcases parsed with _ | functions
  · exact .abandons
  · exact map_known fun _ => (hparsed functions rfl).2 (Or.inl (Nat.succ_pos _))

/-- What is read behind an at-keyword that is known has a known name. -/
theorem keywordRule_known (rule : Production (Option Rule)) (keyword : AtKeyword)
    (hlexes : Lexes i.pieces []) : YieldsKnown (keywordRule ctx rule keyword) i := by
  cases keyword with
  | media => exact mediaRule_known rule
  | fontFace | viewport => exact map_known fun _ => trivial
  | keyframes => exact keyframesRule_known
  | importRule => exact importStatement_known
  | charset => exact charsetStatement_known
  | namespaceRule => exact namespaceStatement_known hlexes
  | page =>
    show YieldsKnown (pageRule ctx) i
    rw [pageRule_eq]
    exact .bind_any fun _ _ _ => map_known fun _ => trivial
  | supports => exact supportsRule_known rule
  | document => exact documentRule_known rule
  | unknown => exact .none

/-- A rule of an unknown name is read behind one. -/
theorem unknownRule_unknown (name : String) (position : Position) :
    (unknownRule ctx name position).Yields i fun result _ => ∀ r, result = some r →
      ∃ rule, r = .unknown rule := by
  unfold unknownRule
  split
  · apply Yields.view
    apply Yields.bind_any
    intro _ _ _
    apply Yields.bind_any
    intro _ _ _
    exact .some ⟨_, rfl⟩
  · exact .abandons

/-- Whatever rule was read is named so, and one of an unknown name starts with it. -/
theorem ruleWithin_starts (depth : Nat) (hlexes : Lexes i.pieces []) :
    (ruleWithin ctx depth).Yields i fun result _ => ∀ r, result = some r → IsNamed r ∧
      ∀ rule, r = .unknown rule →
        i.view.kind = .atKeyword ∧ AtKeyword.ofName i.view.token.name = .unknown := by
  have hknown : ∀ {r : Rule}, IsKnown r → IsNamed r ∧ ∀ rule, r = .unknown rule →
      i.view.kind = .atKeyword ∧ AtKeyword.ofName i.view.token.name = .unknown := by
    intro r h
    cases r with
    | unknown => exact absurd h id
    | _ => exact ⟨h, fun _ hunknown => absurd hunknown (by simp)⟩
  rcases depth with _ | depth
  · exact .none
  unfold ruleWithin
  apply Yields.inFrame
  apply Yields.view
  rcases ruleStarting_cases ctx (ruleWithin ctx depth) i.view.kind with
    hstyle | hkeyword | hnone | ⟨cause, habandoned⟩
  · rw [ruleStarting_style hstyle, styleRule_eq]
    apply Yields.view
    apply Yields.bind_any
    intro parsed rest _
    exact checkedBlock_yields (fun _ _ => .any fun _ _ _ _ => trivial) fun _ _ _ =>
      hknown trivial
  · have hstart : ruleStarting ctx (ruleWithin ctx depth) i.view.kind =
        atRule ctx (ruleWithin ctx depth) := by
      rw [hkeyword]
      rfl
    rw [hstart, atRule_eq]
    apply Yields.take
    split
    · next hname =>
      refine (unknownRule_unknown _ _).mono fun result _ h r hr => ?_
      obtain ⟨rule, rfl⟩ := h r hr
      exact ⟨trivial, fun _ _ => ⟨hkeyword, hname⟩⟩
    · obtain ⟨before, hbefore⟩ := (Reaches.advance i).pieces
      rw [← hbefore] at hlexes
      exact (keywordRule_known _ _ (lexes_append.1 hlexes).2).mono fun _ _ h r hr =>
        hknown (h r hr)
  · rw [hnone]
    exact .none
  · rw [habandoned]
    exact abandonRule_none cause

/-- Whatever rule was read is named so. -/
theorem ruleWithin_named (depth : Nat) (hlexes : Lexes i.pieces []) :
    YieldsNamed (ruleWithin ctx depth) i :=
  (ruleWithin_starts depth hlexes).mono fun _ _ h r hr => (h r hr).1

end Grammar

/-! ### Rules of arguments -/

namespace Rule

/-- Whether a rule holds nothing but arguments: an encoding, a namespace, an import without media,
an animation without moments, or a group for documents without rules. -/
def holdsArguments : Rule → Bool
  | charset _ | namespaceRule _ _ => true
  | importRule _ list => list.isEmpty
  | keyframes _ frames => frames.isEmpty
  | document _ rules => rules.isEmpty
  | _ => false

/-- The texts that a rule prints between quotes. -/
def quotedTexts : Rule → List String
  | charset encoding => [encoding]
  | namespaceRule _ uri => [uri]
  | importRule href _ => [href]
  | keyframes name _ => if Token.isIdentifier name then [] else [name]
  | document functions _ => functions.map DocumentFunction.argument
  | _ => []

end Rule

namespace Grammar

open Production Token Input

variable {config : Config} {ctx : Context} {r : Rule}

/-- A rule whose quoted texts decide whether it is read back: it is if they are lines, and nothing
is read from its print if they are not. -/
structure HangsOnLines (ctx : Context) (r : Rule) : Prop where
  reads : (∀ s ∈ r.quotedTexts, OneLine s) → RuleReadsBack (ruleWithin ctx) r False
  needs : NeedsLines (rule ctx) r.render r.quotedTexts

/-- An encoding hangs on its lines. -/
theorem charset_hangs (encoding : String) : HangsOnLines ctx (.charset encoding) where
  reads h := ruleReadsBack_of_body (by simp : AtKeyword.charset ≠ .unknown)
    (readsKeyword_ruleWithin (by simp))
    (charsetBody_reads_back (h encoding List.mem_cons_self)) (Or.inl rfl) (render_charset encoding)
  needs := by
    rw [render_charset]
    refine rule_needs (by simp) ?_ fun _ => charsetStatement_needs encoding
    rw [charsetText, String.toList_append]
    exact unspaced_stringLiteral encoding _

/-- An import without media hangs on its lines. -/
theorem import_hangs (href : String) : HangsOnLines ctx (.importRule href .empty) where
  reads h := ruleReadsBack_of_body (by simp : AtKeyword.importRule ≠ .unknown)
    (readsKeyword_ruleWithin (by simp))
    (importBody_reads_back (h href List.mem_cons_self) (mediaAhead_empty ctx)) (Or.inl rfl)
    (render_importRule href .empty)
  needs := by
    rw [render_importRule]
    refine rule_needs (by simp) ?_ fun _ => importStatement_needs href .empty
    rw [importText]
    simp only [String.toList_append, List.append_assoc]
    exact unspaced_documentFunction .url _

/-- A namespace hangs on its lines. -/
theorem namespace_hangs {label : Option String} (hlabel : IsLabel label) (uri : String) :
    HangsOnLines ctx (.namespaceRule label uri) where
  reads h := ruleReadsBack_of_body (by simp : AtKeyword.namespaceRule ≠ .unknown)
    (readsKeyword_ruleWithin (by simp))
    (namespaceBody_reads_back hlabel (h uri List.mem_cons_self)) (Or.inl rfl)
    (render_namespaceRule label uri)
  needs := by
    rw [render_namespaceRule]
    refine rule_needs (by simp) ?_ fun _ => namespaceStatement_needs hlabel uri
    rcases label with _ | name
    · simp only [namespaceText, String.toList_append, List.append_assoc]
      exact unspaced_documentFunction .url _
    · simp only [namespaceText, String.toList_append, List.append_assoc]
      exact unspaced_identifier (hlabel name rfl) _

/-- An animation without moments. A name that is an identifier is not quoted. -/
theorem keyframes_hangs (name : String) : HangsOnLines ctx (.keyframes name []) where
  reads h := by
    refine ruleReadsBack_of_body (by simp : AtKeyword.keyframes ≠ .unknown)
      (readsKeyword_ruleWithin (by simp)) (keyframesBody_reads_back ?_ (List.forall_mem_nil _) ?_)
      (Or.inl rfl) (render_keyframes name [])
    · rcases hname : isIdentifier name
      · refine nameReadsBack_of_string hname (h name ?_)
        rw [Rule.quotedTexts, hname]
        exact List.mem_cons_self
      · exact nameReadsBack_of_identifier hname
    · exact fun hne => absurd rfl hne
  needs := by
    rw [render_keyframes, Rule.quotedTexts]
    rcases hname : isIdentifier name
    · refine rule_needs (by simp) ?_ fun _ => keyframesRule_needs hname []
      rw [keyframesText, Rule.animationName, hname, if_neg Bool.false_ne_true]
      simp only [String.toList_append, List.append_assoc]
      exact unspaced_stringLiteral name _
    · exact .nil _ _

/-- A rule for documents without rules hangs on its lines. -/
theorem document_hangs {functions : List DocumentFunction} (hne : functions ≠ []) :
    HangsOnLines ctx (.document functions []) where
  reads h := by
    refine ruleReadsBack_of_body (by simp : AtKeyword.document ≠ .unknown)
      (readsKeyword_ruleWithin (by simp))
      (documentBody_reads_back (advancing_ruleWithin ctx) ⟨hne, fun f hf => ?_⟩
        (List.forall_mem_nil _) fun hne => absurd rfl hne)
      (Or.inl rfl) (render_document functions [])
    exact functionReadsBack_of_oneLine (h f.argument (List.mem_map_of_mem hf))
  needs := by
    rw [render_document]
    refine rule_needs (by simp) ?_ fun _ => documentRule_needs _ functions []
    obtain ⟨f, more, rfl⟩ := List.exists_cons_of_ne_nil hne
    rw [documentText]
    simp only [String.toList_append, List.append_assoc]
    exact unspaced_functionsText f more

/-- The line breaks in its arguments decide whether a rule of arguments is read back. -/
theorem hangsOnLines (hnamed : IsNamed r) (hr : r.holdsArguments = true) : HangsOnLines ctx r := by
  cases r with
  | charset encoding => exact charset_hangs encoding
  | namespaceRule label uri => exact namespace_hangs hnamed uri
  | importRule href list =>
    obtain ⟨media⟩ := list
    cases List.isEmpty_iff.1 hr
    exact import_hangs href
  | keyframes name frames =>
    rw [List.isEmpty_iff.1 hr]
    exact keyframes_hangs name
  | document functions rules =>
    rw [List.isEmpty_iff.1 hr]
    exact document_hangs hnamed
  | _ => exact absurd hr Bool.false_ne_true

end Grammar

open Token Production

/-- A result that passes a test is one. -/
theorem exists_ok_of_any {ε α : Type} {result : Except ε α} {test : α → Bool}
    (h : result.toOption.any test = true) : ∃ a, result = .ok a ∧ test a = true := by
  rcases result with _ | a
  · exact absurd h Bool.false_ne_true
  · exact ⟨a, rfl, h⟩

/-- A rule of arguments that was read from a text is read back from its print if each of the texts
that it prints between quotes is one line. If not, its print is a syntax error. -/
theorem string_arguments_read_back (text : String) (config : Config) (r : Rule)
    (h : Rule.ofText text config = .ok r) (hr : r.holdsArguments = true) :
    Rule.ofText r.render config =
      if ∀ s ∈ r.quotedTexts, OneLine s then .ok r
      else .error (.placeless (.syntaxError r.render)) := by
  have hlexes := lexes_tokenize text none
  have hnamed : Grammar.IsNamed r := by
    have hyields : Grammar.YieldsNamed (Grammar.rule (.ofConfig config)) _ :=
      .view (Grammar.ruleWithin_named _ hlexes)
    exact hyields r (Rule.result_of_ofText h)
  obtain ⟨hreads, hneeds⟩ := @Grammar.hangsOnLines (.ofConfig config) r hnamed hr
  split
  · next hlines =>
    obtain ⟨ps, hps⟩ := hreads hlines
    have hahead : (Input.ofTokens (tokenize r.render none)).Ahead (ps ++ []) False := by
      rw [List.append_nil]
      exact ahead_tokenize none hps.spell (hps.legible.lexes [] (Or.inl rfl)) False.elim
    exact Rule.ofText_of_gives (.view (hps.gives _ _ _ hahead trivial (Nat.lt_succ_self _)))
  · next hlines =>
    apply Rule.ofText_of_none
    rw [Option.eq_none_iff_forall_ne_some]
    intro r' hr'
    exact hlines (hneeds _ (.of_pieces (pieces_tokenize _ _) False.elim) r' hr')

/-- An escaped quote and an escaped backslash are read back, but not an escaped line break. -/
theorem string_arguments_read_back_escapes :
    (∃ r, Rule.ofText "@document url('a\\\"b'), domain('c\\\\') \x7b \x7d" .strict = .ok r ∧
        Rule.ofText r.render .strict = .ok r) ∧
      ∃ r, Rule.ofText "@charset \"\\a \";" .strict = .ok r ∧
        Rule.ofText r.render .strict = .error (.placeless (.syntaxError "@charset \"\n\";")) := by
  constructor
  · have hread : ((Rule.ofText "@document url('a\\\"b'), domain('c\\\\') \x7b \x7d"
        .strict).toOption.any fun r =>
          r.holdsArguments && decide (∀ s ∈ r.quotedTexts, OneLine s)) = true := by
      decide +kernel
    obtain ⟨r, htext, hr⟩ := exists_ok_of_any hread
    rw [Bool.and_eq_true, decide_eq_true_iff] at hr
    refine ⟨r, htext, ?_⟩
    rw [string_arguments_read_back _ _ r htext hr.1, if_pos hr.2]
  · have hread : ((Rule.ofText "@charset \"\\a \";" .strict).toOption.any fun r =>
        r.holdsArguments && (decide (¬ ∀ s ∈ r.quotedTexts, OneLine s) &&
          decide (r.render = "@charset \"\n\";"))) = true := by
      decide +kernel
    obtain ⟨r, htext, hr⟩ := exists_ok_of_any hread
    rw [Bool.and_eq_true, Bool.and_eq_true, decide_eq_true_iff, decide_eq_true_iff] at hr
    refine ⟨r, htext, ?_⟩
    rw [string_arguments_read_back _ _ r htext hr.1, if_neg hr.2.1, hr.2.2]

end Cssom
