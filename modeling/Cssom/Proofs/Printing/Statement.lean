import Cssom.Proofs.Printing.Media
import Cssom.Proofs.Reading.Endings

/-!
# Statements are read back

Every address is printed as a quoted one, which is read back wherever it stands if it is one line
(`legible_quoted`, `location_reads_back`). So are an encoding, an import and a namespace behind
their at-keywords (`charsetBody_reads_back`, `importBody_reads_back`, `namespaceBody_reads_back`),
whichever of them a plain source holds (`charsetStatement_reads_back`, `importStatement_reads_back`,
`namespaceStatement_reads_back`).
-/

namespace Cssom

namespace Token

/-! ### Quoted addresses -/

/-- A function that names documents, applied to a string. -/
def quotedPieces (kind : DocumentFunction.Kind) (s : String) : List Piece :=
  [(.function, kind.name ++ "("), (.string, Text.stringLiteral s), (.closeParen, ")")]

/-- What is put in quotes is quoted, whatever follows it. -/
theorem quoted_stringLiteral (s : String) (w : List Char) :
    Quoted ((Text.stringLiteral s).toList ++ w) := by
  refine ⟨'"', Text.escapeQuotes s.toList ++ ['"'] ++ w, ?_, rfl⟩
  rw [Text.stringLiteral, String.toList_ofList]
  rfl

/-- The name of a function that names documents is read before a string. -/
theorem first_documentFunction (kind : DocumentFunction.Kind) {s : List Char} (h : Quoted s) :
    first ((kind.name ++ "(").toList ++ s) = (.function, (kind.name ++ "(").toList.length) := by
  cases kind with
  | url =>
    have ho : IsOpening ['u', 'r', 'l', '('] := by
      refine ⟨'u', 'r', 'l', rfl, ?_, ?_, ?_⟩ <;> exact List.mem_cons_self
    have hfirst := first_opening ho s
    rw [plainUrl_quoted ho h, spoiledUrl_quoted ho h] at hfirst
    exact hfirst
  | urlPrefix => rfl
  | domain => rfl
  | regexp => rfl

/-- An address in quotes is legible if it is of one line. -/
theorem legible_quoted (kind : DocumentFunction.Kind) {s : String} (h : OneLine s) :
    Legible (quotedPieces kind s) where
  head := ⟨_, _, rfl, rfl⟩
  lexes w _ := by
    refine ⟨first_documentFunction kind ?_, (alone_stringLiteral h).lexes
      (alone_closeParen.lexes trivial)⟩
    rw [spell_cons, List.append_assoc]
    exact quoted_stringLiteral s _

/-- A quoted address is spelled as the name of its function and its text in quotes. -/
theorem spell_quoted (kind : DocumentFunction.Kind) (s : String) :
    spell (quotedPieces kind s) =
      (kind.name ++ "(" ++ Text.stringLiteral s ++ ")").toList := by
  simp [quotedPieces]

/-- A function that names documents is known by its name. -/
theorem name_documentFunction (kind : DocumentFunction.Kind) {t : Token}
    (hkind : t.kind = .function) (htext : t.text = kind.name ++ "(") : t.name = kind.name := by
  rw [Token.name, hkind]
  simp [htext]

end Token

namespace Grammar

open Production Token Input

variable {config : Config} {ctx : Context} {i j : Input} {placed : Prop}

/-! ### Addresses -/

/-- A location is read back before any token. -/
theorem location_reads_back {href : String} (h : OneLine href) :
    ReadsAs (fun _ => location) (fun _ => True) (fun _ => True) (some href)
      ("url(" ++ Text.stringLiteral href ++ ")") (quotedPieces .url href) placed := by
  refine ⟨spell_quoted .url href, legible_quoted .url h, trivial, ?_⟩
  intro _ input tail hahead _ _
  have hahead : input.Ahead ((.function, "url(") :: (.string, Text.stringLiteral href) ::
      (.closeParen, ")") :: tail) placed := hahead
  have hstring := hahead.advance rfl
  have hclose := hstring.advance rfl
  have hname : Text.sameLetters input.view.token.name "url" = true := by
    rw [name_documentFunction .url hahead.kind (hahead.text rfl)]
    rfl
  have hcontents := contents_stringLiteral hstring.kind (hstring.text rfl)
  unfold location
  apply Gives.view
  rw [hahead.kind, headKind_cons rfl]
  simp only [hname, if_true]
  apply Gives.skip
  unfold quotedLocation
  apply Gives.view
  rw [hstring.kind, headKind_cons rfl, if_pos rfl]
  apply Gives.skip
  apply Gives.kind
  rw [hclose.kind, headKind_cons rfl, if_pos rfl]
  apply Gives.skip
  rw [hcontents]
  exact .pure (hclose.advance rfl)

/-- An address in quotes that is read from a plain source is of one line. -/
theorem quotedLocation_oneLine (hplain : Plain i.pieces) :
    quotedLocation.Yields i fun result _ => ∀ href, result = some href → OneLine href := by
  unfold quotedLocation
  apply Yields.view
  split
  · next hkind =>
    have hsource := plain_of_kind hplain hkind rfl
    apply Yields.skip
    apply Yields.kind
    split
    · apply Yields.skip
      apply Yields.some
      exact oneLine_contents hsource hkind
    · exact Yields.bind_any fun _ _ _ => .none
  · exact Yields.bind_any fun _ _ _ => .none

/-- A location of a plain source is one line. -/
theorem location_oneLine (hplain : Plain i.pieces) :
    location.Yields i fun result _ => ∀ href, result = some href → OneLine href := by
  unfold location
  apply Yields.view
  split
  · next hkind =>
    have hsource := plain_of_kind hplain hkind rfl
    apply Yields.skip
    apply Yields.some
    exact oneLine_contents hsource hkind
  · next hkind =>
    have hsource := plain_of_kind hplain hkind rfl
    apply Yields.skip
    apply Yields.some
    exact oneLine_address hsource hkind
  · split
    · apply Yields.skip
      exact quotedLocation_oneLine ((Reaches.advance i).plain hplain)
    · exact .none
  · exact .none

/-! ### Statements -/

/-- What stands behind an at-keyword is read back as a rule, before any token. -/
def BodyReadsBack (p : Nat → Production (Option Rule)) (r : Rule) (text : String)
    (placed : Prop := True) : Prop :=
  ReadsBack p (fun _ => True) (fun _ => True) (some r) text placed

/-- A semicolon ends a statement. -/
theorem gives_passStatement {tail : List Piece} (h : j.Ahead ((.semicolon, ";") :: tail) placed) :
    passStatement.Gives j () tail placed := by
  have hsize : j.view.size = j.advance.size + 1 := h.size rfl
  have hkind : j.view.token.kind = .semicolon := h.kind
  unfold passStatement
  apply Gives.view
  rw [hsize]
  unfold passStatementFrom
  apply Gives.view
  rw [View.atEnd, hkind, if_neg (by simp)]
  apply Gives.skip
  rw [View.kind, hkind, if_pos rfl]
  exact .pure (h.advance rfl)

/-- What stands between an address and the semicolon after it is read as the media of an import. -/
structure MediaAhead (ctx : Context) (list : MediaList) (ps : List Piece)
    (placed : Prop := True) : Prop where
  spell : spell ps = ((if list.isEmpty then "" else " " ++ list.render) ++ ";").toList
  legible : ∀ qs, Legible qs → Legible (qs ++ ps)
  gives : ∀ (j : Input) tail, j.Ahead (ps ++ tail) placed →
    (importMedia ctx).Gives j list ((.semicolon, ";") :: tail) placed

/-- Where the semicolon is ahead there are no media. -/
theorem mediaAhead_empty (ctx : Context) : MediaAhead ctx .empty [(.semicolon, ";")] placed where
  spell := rfl
  legible _ hqs := hqs.append_mark alone_semicolon rfl
  gives j tail hahead := by
    have hahead : j.Ahead ((.semicolon, ";") :: tail) placed := hahead
    unfold importMedia
    apply Gives.kind
    rw [hahead.kind, headKind_cons rfl]
    exact .pure hahead

/-- Media that are read back are ahead behind a blank. -/
theorem mediaAhead_of_reads_back {list : MediaList} (hne : list.isEmpty = false) {ms : List Piece}
    (h : ReadsAs (fun _ => mediaList ctx .semicolon) (fun k => k = .ident ∨ k = .openParen)
      (· = .semicolon) list list.render ms) :
    MediaAhead ctx list (blank :: ms ++ [(.semicolon, ";")]) where
  spell := by
    rw [hne]
    simp [h.spell, blank]
  legible qs hqs := by
    have hmarked := (hqs.append_blank h.legible).append_mark alone_semicolon rfl
    rwa [List.append_assoc] at hmarked
  gives j tail hahead := by
    have hmedia : j.Ahead (ms ++ (.semicolon, ";") :: tail) := by
      have htail : j.Ahead (blank :: (ms ++ ([(.semicolon, ";")] ++ tail))) := by simpa using hahead
      exact htail.tail rfl
    have hkind : j.view.kind = headKind ms := by rw [hmedia.kind, h.headKind_append]
    unfold importMedia
    apply Gives.kind
    rcases h.starts with hstart | hstart <;> rw [hkind, hstart] <;>
      exact h.gives (j.size + 1) j _ hmedia rfl (Nat.lt_succ_self _)

/-- The media of an import are read back before its semicolon. -/
theorem importMedia_reads_back (hplain : Plain i.pieces) :
    (importMedia (.ofConfig config)).Yields i fun list _ =>
      ∃ ps, MediaAhead (.ofConfig config) list ps := by
  have hmedia : (mediaList (.ofConfig config) .semicolon).Yields i fun list _ =>
      ∃ ps, MediaAhead (.ofConfig config) list ps := by
    refine (mediaList_reads_back True hplain.regular (by simp) (by simp)).mono fun list _ h => ?_
    obtain ⟨hne, ms, hms⟩ := h
    exact ⟨_, mediaAhead_of_reads_back hne hms⟩
  unfold importMedia
  apply Yields.kind
  split
  · exact .pure ⟨_, mediaAhead_empty _⟩
  · exact .pure ⟨_, mediaAhead_empty _⟩
  · exact hmedia

/-- The text of an import, behind its at-keyword. -/
def importText (href : String) (media : MediaList) : String :=
  "url(" ++ Text.stringLiteral href ++ ")" ++
    (if media.isEmpty then "" else " " ++ media.render) ++ ";"

/-- An import is read back behind its at-keyword, where its media are. -/
theorem importBody_reads_back {href : String} (h : OneLine href) {media : MediaList}
    {ms : List Piece} (hmedia : MediaAhead ctx media ms placed) :
    BodyReadsBack (fun _ => importStatement ctx) (.importRule href media) (importText href media)
      placed := by
  have hlocation := @location_reads_back placed href h
  refine ⟨quotedPieces .url href ++ ms, ?_, hmedia.legible _ hlocation.legible, trivial, ?_⟩
  · rw [spell_append, hlocation.spell, hmedia.spell, importText]
    simp [String.toList_append]
  · intro _ input tail hahead _ _
    rw [List.append_assoc] at hahead
    unfold importStatement
    apply Gives.bind (hlocation.gives (input.size + 1) input _ hahead trivial (Nat.lt_succ_self _))
    intro rest _ hrest
    apply Gives.bind (hmedia.gives rest tail hrest)
    intro rest' _ hrest'
    apply Gives.bind (gives_passStatement hrest')
    intro rest'' _ hrest''
    exact .pure hrest''

/-- A statement that is passed over gives nothing. -/
theorem abandonStatement_yields {P : Rule → Input → Prop} : abandonStatement.Yields i
    fun result rest => ∀ r, result = some r → P r rest := by
  unfold abandonStatement
  exact .abandons

/-- An import that was read is read back behind its at-keyword. -/
theorem importStatement_reads_back (hplain : Plain i.pieces) :
    (importStatement (.ofConfig config)).Yields i fun result _ => ∀ r, result = some r →
      ∃ href media, r = .importRule href media ∧
        BodyReadsBack (fun _ => importStatement (.ofConfig config)) r (importText href media) := by
  unfold importStatement
  apply Yields.bind (location_oneLine hplain)
  intro parsed rest hreach hparsed
  rcases parsed with _ | href
  · exact abandonStatement_yields
  apply Yields.bind (importMedia_reads_back (hreach.plain hplain))
  intro media rest' _ hmedia
  obtain ⟨ms, hms⟩ := hmedia
  apply Yields.bind_any
  intro _ rest'' _
  exact .some ⟨href, media, rfl, importBody_reads_back (hparsed href rfl) hms⟩

/-- The text of an encoding, behind its at-keyword. -/
def charsetText (encoding : String) : String :=
  Text.stringLiteral encoding ++ ";"

/-- An encoding is read back behind its at-keyword. -/
theorem charsetBody_reads_back {encoding : String} (h : OneLine encoding) :
    BodyReadsBack (fun _ => charsetStatement) (.charset encoding) (charsetText encoding)
      placed := by
  refine ⟨[(.string, Text.stringLiteral encoding), (.semicolon, ";")], ?_, ?_, trivial, ?_⟩
  · simp [charsetText]
  · exact .cons_alone (alone_stringLiteral h) (.of_alone alone_semicolon)
  · intro _ input tail hahead _ _
    have hahead : input.Ahead ((.string, Text.stringLiteral encoding) :: (.semicolon, ";") :: tail)
      placed := hahead
    have hcontents := contents_stringLiteral hahead.kind (hahead.text rfl)
    unfold charsetStatement
    apply Gives.view
    rw [hahead.kind, headKind_cons rfl, if_pos rfl]
    apply Gives.skip
    apply Gives.bind (gives_passStatement (hahead.advance rfl))
    intro rest' _ hrest'
    rw [hcontents]
    exact .pure hrest'

/-- An encoding that was read is read back behind its at-keyword. -/
theorem charsetStatement_reads_back (hplain : Plain i.pieces) :
    charsetStatement.Yields i fun result _ => ∀ r, result = some r →
      ∃ encoding, r = .charset encoding ∧
        BodyReadsBack (fun _ => charsetStatement) r (charsetText encoding) := by
  unfold charsetStatement
  apply Yields.view
  split
  case isFalse => exact abandonStatement_yields
  next hkind =>
  have hsource := plain_of_kind hplain hkind rfl
  apply Yields.skip
  apply Yields.bind_any
  intro _ rest _
  exact .some ⟨_, rfl, charsetBody_reads_back (oneLine_contents hsource hkind)⟩

/-! ### Namespaces -/

/-- The pieces of a label, and the blank behind them. -/
def labelPieces : Option String → List Piece
  | some label => [(.ident, label), blank]
  | none => []

/-- The text of a namespace, behind its at-keyword. -/
def namespaceText (label : Option String) (uri : String) : String :=
  (match label with
  | some label => label ++ " "
  | none => "") ++ "url(" ++ Text.stringLiteral uri ++ ");"

/-- A label that is there is an identifier. -/
def IsLabel (label : Option String) : Prop :=
  ∀ name, label = some name → isIdentifier name = true

/-- A label is a token of its source. -/
theorem namespaceLabel_isLabel (hlexes : Lexes i.pieces []) :
    namespaceLabel.Yields i fun label _ => IsLabel label := by
  unfold namespaceLabel
  apply Yields.view
  split
  · next hkind =>
    apply Yields.map
    apply Yields.map
    intro name hname
    rw [← Option.some.inj hname]
    obtain ⟨lead, hpieces⟩ := i.exists_lead (by rw [hkind]; rfl)
    rw [hpieces] at hlexes
    have hfirst := (lexes_append.1 hlexes).2.1
    rw [show i.view.token.piece = (.ident, i.view.token.text) from Prod.ext hkind rfl] at hfirst
    have hidentifier := isIdentifier_of_first hfirst
    rwa [String.ofList_toList] at hidentifier
  · exact .none

/-- What is legible stays so behind a label. -/
theorem legible_labelled {label : Option String} (h : IsLabel label) {ps : List Piece}
    (hps : Legible ps) : Legible (labelPieces label ++ ps) := by
  rcases label with _ | name
  · exact hps
  · exact (legible_identifier (h name rfl)).append_blank hps

/-- A label is read before an address. -/
theorem gives_namespaceLabel (label : Option String) {tail : List Piece}
    (hahead : j.Ahead (labelPieces label ++ tail) placed) (htail : headKind tail = .function) :
    namespaceLabel.Gives j label tail placed := by
  unfold namespaceLabel
  apply Gives.view
  rcases label with _ | name
  · have hahead : j.Ahead tail placed := hahead
    rw [hahead.kind, htail, if_neg (by simp)]
    exact .pure hahead
  · have hahead : j.Ahead ((.ident, name) :: blank :: tail) placed := hahead
    rw [hahead.kind, headKind_cons rfl, if_pos rfl]
    have htake : take.Gives j j.view.token tail placed :=
      .of_read (read_take j) ((hahead.advance rfl).tail rfl)
    have hread := (htake.map (g := Token.text)).map (g := some)
    rwa [hahead.text rfl] at hread

/-- A namespace is read back behind its at-keyword. -/
theorem namespaceBody_reads_back {label : Option String} (hlabel : IsLabel label) {uri : String}
    (h : OneLine uri) : BodyReadsBack (fun _ => namespaceStatement) (.namespaceRule label uri)
      (namespaceText label uri) placed := by
  have hlocation := @location_reads_back placed uri h
  refine ⟨labelPieces label ++ (quotedPieces .url uri ++ [(.semicolon, ";")]), ?_,
    legible_labelled hlabel (hlocation.legible.append_mark alone_semicolon rfl), trivial, ?_⟩
  · rw [spell_append, spell_append, hlocation.spell]
    rcases label with _ | name
    · simp [labelPieces, namespaceText, String.toList_append]
    · simp [labelPieces, namespaceText, String.toList_append, blank]
  · intro _ input tail hahead _ _
    rw [List.append_assoc, List.append_assoc] at hahead
    rw [namespaceStatement_eq]
    apply Gives.bind (gives_namespaceLabel label hahead rfl)
    intro rest _ hrest
    apply Gives.bind (hlocation.gives (rest.size + 1) rest _ hrest trivial (Nat.lt_succ_self _))
    intro rest' _ hrest'
    apply Gives.bind (gives_passStatement hrest')
    intro rest'' _ hrest''
    exact .pure hrest''

/-- A namespace that was read is read back behind its at-keyword. -/
theorem namespaceStatement_reads_back (hplain : Plain i.pieces) :
    namespaceStatement.Yields i fun result _ => ∀ r, result = some r →
      ∃ label uri, r = .namespaceRule label uri ∧
        BodyReadsBack (fun _ => namespaceStatement) r (namespaceText label uri) := by
  rw [namespaceStatement_eq]
  apply Yields.bind (namespaceLabel_isLabel hplain.lexes)
  intro label rest hreach hlabel
  apply Yields.bind (location_oneLine (hreach.plain hplain))
  intro parsed rest' _ hparsed
  rcases parsed with _ | uri
  · exact abandonStatement_yields
  apply Yields.bind_any
  intro _ rest'' _
  rw [← namespaceStatement_eq]
  exact .some ⟨label, uri, rfl, namespaceBody_reads_back hlabel (hparsed uri rfl)⟩

end Grammar

end Cssom
