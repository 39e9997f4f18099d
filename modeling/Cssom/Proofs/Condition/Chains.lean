import Cssom.Proofs.Condition.ReadBack

/-!
# Chains are cut at the first connector that differs

Closed conditions with connectors between them are read as one flat chain, which goes on as long as
the connectors are the first one, in letters of any case (`chains_are_cut`). The parser stops at the
first one that differs and leaves all from there on unread. A closed part may stand before anything,
so nothing of what follows it has a say in how it is read.
-/

namespace Cssom

open Production Token

namespace Condition

/-- Some source in which no backslash is a token by itself holds the condition, or holds it as a
part. -/
def IsReadUnder (config : Config) (c : Condition) : Prop :=
  ∃ source file tokens, Token.scan source file = .ok tokens ∧
    (∀ t ∈ tokens, t.kind = .delim → t.text ≠ "\\") ∧
    ((Condition.parse tokens config).1 = some c ∨
      ((Grammar.operand (.ofConfig config)).run (.ofTokens tokens config)).1 = some c)

/-- What follows the first part of a chain, as text: connectors, each with the part behind it. -/
def linksText : List (String × Condition) → String
  | [] => ""
  | (word, c) :: links => " " ++ word ++ " " ++ c.render ++ linksText links

/-- A closed condition does not go on up to a token that ends values. -/
theorem isOpen_of_isClosed : (c : Condition) → c.isClosed = true → c.isOpen = false
  | group _, _ => rfl
  | negation inner, h => isOpen_of_isClosed inner h
  | empty, h => absurd h Bool.false_ne_true
  | declaration _, h => absurd h Bool.false_ne_true
  | conjunction _, h => absurd h Bool.false_ne_true
  | disjunction _, h => absurd h Bool.false_ne_true

end Condition

namespace Grammar

variable {ctx : Context} {config : Config} {c : Condition} {i j : Input} {placed : Prop}
  {links : List (String × Condition)} {pls : List (String × List Piece)}

/-! ### Closed parts -/

/-- What is read on in a chain is a chain of its connector. -/
theorem chainFrom_yields_join {operand : Production (Option Condition)} {connector : Connector}
    (rounds : Nat) {before : List Condition} :
    (chainFrom operand connector rounds before).Yields i fun result _ => ∀ c, result = some c →
      ∃ parts, c = connector.join parts := by
  induction rounds generalizing before i with
  | zero => exact .some ⟨before, rfl⟩
  | succ rounds ih =>
    unfold chainFrom
    apply Yields.view
    split
    · apply Yields.skip
      apply Yields.bind_any
      intro parsed rest _
      rcases parsed with _ | part
      · exact .none
      · exact ih
    · exact .some ⟨before, rfl⟩

/-- What is closed is no chain, so whoever reads it as one has read it as a part. -/
theorem closed_reads_back {depth : Nat} (hoperand : OperandsReadBack ctx depth placed)
    (hregular : Regular i.pieces) : (chainOf (operandWithin ctx depth)).Yields i
      fun result _ => ∀ c, result = some c → c.isClosed = true → OperandReadsBack ctx c placed := by
  unfold chainOf
  apply Yields.inFrame
  apply Yields.bind (hoperand i hregular)
  intro parsed rest _ hparsed
  rcases parsed with _ | first
  · exact .none
  apply Yields.view
  split
  · exact .some fun _ => (hparsed first rfl).1
  · next connector _ =>
    refine (chainFrom_yields_join _).mono fun result _ hjoin c hc hclosed => ?_
    obtain ⟨parts, rfl⟩ := hjoin c hc
    cases connector <;> exact absurd hclosed Bool.false_ne_true

/-- A closed condition that was read is read back as a part. -/
theorem operandReadsBack_of_isReadUnder (hinvalid : config.keepInvalidValues = false)
    (h : c.IsReadUnder config) (hclosed : c.isClosed = true) :
    OperandReadsBack (.ofConfig config) c False := by
  obtain ⟨source, file, tokens, hscan, hslash, hread⟩ := h
  rw [scan_eq_tokenize, Except.ok.injEq] at hscan
  subst hscan
  have hregular := regular_tokenize hslash
  have hoperands : ∀ depth, OperandsReadBack (.ofConfig config) depth False :=
    operand_reads_back hinvalid
  rcases hread with hread | hread
  · have hyields : (condition (.ofConfig config)).Yields (Input.ofTokens (tokenize source file))
        fun result _ => ∀ c, result = some c → c.isClosed = true →
          OperandReadsBack (.ofConfig config) c False :=
      .view (closed_reads_back (hoperands _) hregular)
    rw [Condition.parse, run_result] at hread
    exact hyields c hread hclosed
  · have hyields : (operand (.ofConfig config)).Yields (Input.ofTokens (tokenize source file))
        fun result rest => ∀ c, result = some c → OperandReadsBack (.ofConfig config) c False ∧
          FollowsOperand c rest.view.kind :=
      .view (hoperands _ _ hregular)
    rw [run_result] at hread
    exact (hyields c hread).1

/-! ### Links and their pieces -/

/-- The links of a chain are printed as these: the same words, and the pieces of the parts. -/
abbrev LinksPrint (ctx : Context) (links : List (String × Condition))
    (pls : List (String × List Piece)) : Prop :=
  List.Forall₂ (fun link pl => pl.1 = link.1 ∧ ReadsAs (operandWithin ctx) StartsCondition
    (FollowsOperand link.2) (some link.2) link.2.render pl.2 False) links pls

/-- Links whose parts are read back are printed in some pieces. -/
theorem exists_linksPrint (h : ∀ link ∈ links, OperandReadsBack ctx link.2 False) :
    ∃ pls, LinksPrint ctx links pls := by
  induction links with
  | nil => exact ⟨[], .nil⟩
  | cons link links ih =>
    rw [List.forall_mem_cons] at h
    obtain ⟨ps, hps⟩ := h.1
    obtain ⟨pls, hpls⟩ := ih h.2
    exact ⟨(link.1, ps) :: pls, .cons ⟨rfl, hps⟩ hpls⟩

namespace LinksPrint

/-- The parts of the links are read as the pieces they are printed in. -/
theorem readAs (h : LinksPrint ctx links pls) : LinksReadAs ctx (links.map Prod.snd) pls False :=
  List.forall₂_map_left_iff.2 (h.imp fun _ _ hlink => hlink.2)

/-- What holds of the words of the links holds of the words between their pieces. -/
theorem words {P : String → Prop} (h : LinksPrint ctx links pls)
    (hwords : ∀ link ∈ links, P link.1) : ∀ pl ∈ pls, P pl.1 := by
  induction h with
  | nil => exact List.forall_mem_nil _
  | cons hlink _ ih =>
    rw [List.forall_mem_cons] at hwords
    exact List.forall_mem_cons.2 ⟨hlink.1 ▸ hwords.1, ih hwords.2⟩

/-- The pieces of the links spell the text of the links. -/
theorem spell_eq (h : LinksPrint ctx links pls) :
    spell (pls.flatMap linkPieces) = (Condition.linksText links).toList := by
  induction h with
  | nil => rfl
  | @cons link pl links pls hlink _ ih =>
    rw [List.flatMap_cons, spell_append, ih, linkPieces, spell_append, hlink.2.spell, hlink.1]
    simp [Condition.linksText, wordSeparator, blank, String.toList_append]

/-- What is legible stays so with the links behind it, if their words are connectors. -/
theorem legible (h : LinksPrint ctx links pls)
    (hwords : ∀ link ∈ links, ∃ connector : Connector, connector.Spells link.1) {ps : List Piece}
    (hps : Legible ps) : Legible (ps ++ pls.flatMap linkPieces) := by
  induction h generalizing ps with
  | nil => simpa using hps
  | @cons link pl links pls hlink _ ih =>
    rw [List.forall_mem_cons] at hwords
    obtain ⟨connector, hconnector⟩ := hwords.1
    have hword := separates_word (Connector.legible_of_spells hconnector) ps pl.2 hps
      hlink.2.legible
    rw [List.flatMap_cons, ← List.append_assoc, linkPieces, hlink.1]
    exact ih hwords.2 hword

/-- The word of the first link is next where the links are ahead. -/
theorem ahead_word {link : String × Condition} (h : LinksPrint ctx (link :: links) pls)
    (hahead : j.Ahead (pls.flatMap linkPieces) placed) :
    ∃ tail, j.Ahead ((.ident, link.1) :: tail) placed := by
  rcases h with _ | ⟨hlink, _⟩
  rw [← List.append_nil (List.flatMap _ _)] at hahead
  have hword := ahead_word_of_links hahead
  rw [hlink.1] at hword
  exact ⟨_, hword⟩

end LinksPrint

/-! ### Where a chain ends -/

/-- A connector that is another one does not go on with the chain. -/
theorem stops_at_links {connector : Connector} (h : LinksPrint ctx links pls)
    (hwords : ∀ link ∈ links, ∃ connector : Connector, connector.Spells link.1)
    (hdiffers : ∀ link ∈ links.head?, ¬ connector.Spells link.1)
    (hahead : j.Ahead (pls.flatMap linkPieces) placed) :
    Connector.ofToken? j.view.token ≠ some connector := by
  rcases links with _ | ⟨link, links⟩
  · cases h
    rw [Connector.ofToken?_of_kind]
    · simp
    · rw [hahead.kind]
      decide
  · obtain ⟨other, hother⟩ := hwords link List.mem_cons_self
    obtain ⟨tail, hword⟩ := h.ahead_word hahead
    rw [Connector.ofToken?_of_spells hother hword, Ne, Option.some.injEq]
    rintro rfl
    exact hdiffers link rfl hother

/-- A chain of closed parts is read up to the connector that cuts it. -/
theorem gives_cut_chain {connector : Connector} {first : Condition}
    {taken left : List (String × Condition)} (file : Option String)
    (hfirst : OperandReadsBack ctx first False)
    (hparts : ∀ link ∈ taken ++ left, OperandReadsBack ctx link.2 False)
    (hclosed : ∀ c ∈ first :: taken.map Prod.snd, c.isClosed = true) (hne : taken ≠ [])
    (htaken : ∀ link ∈ taken, connector.Spells link.1)
    (hleft : ∀ link ∈ left, ∃ connector : Connector, connector.Spells link.1)
    (hdiffers : ∀ link ∈ left.head?, ¬ connector.Spells link.1) :
    ∃ pls, LinksPrint ctx left pls ∧ (condition ctx).Gives
      (Input.ofTokens (tokenize (first.render ++ Condition.linksText (taken ++ left)) file))
      (some (connector.join (first :: taken.map Prod.snd))) (pls.flatMap linkPieces) False := by
  obtain ⟨ps, hps⟩ := hfirst
  obtain ⟨takenPieces, htakenPrint⟩ :=
    exists_linksPrint fun link hlink => hparts link (List.mem_append_left _ hlink)
  obtain ⟨leftPieces, hleftPrint⟩ :=
    exists_linksPrint fun link hlink => hparts link (List.mem_append_right _ hlink)
  have hprint : LinksPrint ctx (taken ++ left) (takenPieces ++ leftPieces) :=
    List.rel_append htakenPrint hleftPrint
  have hwords : ∀ link ∈ taken ++ left, ∃ connector : Connector, connector.Spells link.1 := by
    intro link hlink
    rcases List.mem_append.1 hlink with hlink | hlink
    · exact ⟨connector, htaken link hlink⟩
    · exact hleft link hlink
  have hahead : (Input.ofTokens (tokenize (first.render ++ Condition.linksText (taken ++ left))
      file)).Ahead (ps ++ (takenPieces ++ leftPieces).flatMap linkPieces) False := by
    refine ahead_tokenize file ?_ ((hprint.legible hwords hps.legible).lexes [] (Or.inl rfl))
      False.elim
    rw [spell_append, hps.spell, hprint.spell_eq, String.toList_append]
  rw [List.flatMap_append] at hahead
  have hopen : ∀ c ∈ first :: taken.map Prod.snd, c.isOpen = false :=
    fun c hc => c.isOpen_of_isClosed (hclosed c hc)
  have hpieces : takenPieces ≠ [] := by
    rintro rfl
    cases htakenPrint
    exact hne rfl
  refine ⟨leftPieces, hleftPrint, .view (gives_chainOf hps htakenPrint.readAs hpieces
    (htakenPrint.words htaken) hahead ⟨?_, ?_⟩ ?_ (Nat.lt_succ_self _))⟩
  · exact fun c hc => hopen c (List.dropLast_subset _ hc)
  · intro c hc hthis
    rw [hopen c (List.mem_of_getLast? hc)] at hthis
    exact absurd hthis Bool.false_ne_true
  · exact fun rest hrest => stops_at_links hleftPrint hleft hdiffers hrest

end Grammar

/-! ### What is left unread -/

/-- Where pieces are ahead of an input, its last tokens are what they stand for. -/
theorem Input.Ahead.exists_unread {input rest : Input} {ps : List Piece} {placed : Prop}
    (h : rest.Ahead ps placed) (hreach : input.Reaches rest) : ∃ read unread,
      input.tokens = read ++ unread ∧ unread.map Token.piece = ps ∧
        rest.ahead.map (·.token) = unread.filter (·.kind.isSignificant) := by
  obtain ⟨read, hread⟩ := hreach.tokens_suffix
  obtain ⟨lead, hlead, hpieces⟩ := h.pieces
  obtain ⟨trivia, unread, hsplit, htrivia, hunread⟩ := List.map_eq_append_iff.1 hpieces
  refine ⟨read ++ trivia, unread, ?_, hunread, ?_⟩
  · rw [← hread, hsplit, List.append_assoc]
  · have hnone : ∀ t ∈ trivia, t.kind.isSignificant = false := fun t ht =>
      hlead t.piece (htrivia ▸ List.mem_map_of_mem (f := Token.piece) ht)
    rw [← rest.filter_tokens, hsplit, List.filter_append, Input.filter_trivia hnone,
      List.nil_append]

/-- The parser stands on the connector of the first link, or at the end if there is no link. -/
def Parser.StandsOn (parser : Parser) : List (String × Condition) → Prop
  | [] => parser.view.kind = .eof
  | (word, _) :: _ => parser.view.kind = .ident ∧ parser.view.token.text = word

/-- Where links are ahead, the parser stands on the first of them. -/
theorem Grammar.LinksPrint.standsOn {ctx : Context} {links : List (String × Condition)}
    {pls : List (String × List Piece)} {parser : Parser} {placed : Prop}
    (h : LinksPrint ctx links pls)
    (hahead : parser.input.Ahead (pls.flatMap linkPieces) placed) : parser.StandsOn links := by
  rcases links with _ | ⟨link, links⟩
  · cases h
    exact hahead.kind
  · obtain ⟨tail, hword⟩ := h.ahead_word hahead
    exact ⟨hword.kind, hword.text rfl⟩

/-- The text is read as the condition. The parser stands on the first of the links then, and their
text is what it leaves unread. -/
def Condition.IsReadUpTo (config : Config) (file : Option String) (text : String) (c : Condition)
    (left : List (String × Condition)) : Prop :=
  ∃ tokens, Token.scan text file = .ok tokens ∧ (Condition.parse tokens config).1 = some c ∧
    (Condition.parse tokens config).2.StandsOn left ∧
    ∃ read unread eof, tokens = read ++ unread ++ [eof] ∧ eof.kind = .eof ∧
      Token.spelling unread = Condition.linksText left ∧
      (Condition.parse tokens config).2.rest.map Prod.fst =
        unread.filter (·.kind.isSignificant)

/-- Of a chain whose first links have one connector and whose next link has another, the first links
are read. -/
theorem exists_reading_of_links {config : Config} {connector : Grammar.Connector}
    {first : Condition} {links taken left : List (String × Condition)}
    (hlinks : taken ++ left = links) (hinvalid : config.keepInvalidValues = false)
    (hparts : ∀ c ∈ first :: links.map Prod.snd, c.isClosed = true ∧ c.IsReadUnder config)
    (hne : taken ≠ []) (htaken : ∀ link ∈ taken, connector.Spells link.1)
    (hleft : ∀ link ∈ left, ∃ connector : Grammar.Connector, connector.Spells link.1)
    (hdiffers : ∀ link ∈ left.head?, ¬ connector.Spells link.1) (file : Option String) :
    Condition.IsReadUpTo config file (first.render ++ Condition.linksText links)
      (connector.join (first :: taken.map Prod.snd)) left := by
  subst hlinks
  rw [List.map_append, List.forall_mem_cons] at hparts
  have hoperand : ∀ link ∈ taken ++ left,
      Grammar.OperandReadsBack (.ofConfig config) link.2 False := by
    intro link hlink
    have hpart := hparts.2 link.2 (by
      rw [← List.map_append]
      exact List.mem_map_of_mem hlink)
    exact Grammar.operandReadsBack_of_isReadUnder hinvalid hpart.2 hpart.1
  have hclosed : ∀ c ∈ first :: taken.map Prod.snd, c.isClosed = true :=
    List.forall_mem_cons.2 ⟨hparts.1.1, fun c hc => (hparts.2 c (List.mem_append_left _ hc)).1⟩
  obtain ⟨pls, hpls, hgives⟩ := Grammar.gives_cut_chain file
    (Grammar.operandReadsBack_of_isReadUnder hinvalid hparts.1.2 hparts.1.1) hoperand hclosed hne
    htaken hleft hdiffers
  obtain ⟨ts, eof, htokens, heof, _, htake⟩ :=
    tokenize_eq (first.render ++ Condition.linksText (taken ++ left)) file
  have hrest : (Condition.parse (tokenize (first.render ++
      Condition.linksText (taken ++ left)) file) config).2.input = _ := run_rest _ _
  refine ⟨_, scan_eq_tokenize _ _, ?_, hpls.standsOn (hrest ▸ hgives.rest), ?_⟩
  · rw [Condition.parse, run_result]
    exact hgives.result
  · obtain ⟨read, unread, hsplit, hunread, hfilter⟩ := hgives.rest.exists_unread
      (Production.read_reaches _ _)
    rw [Input.tokens_ofTokens, htake] at hsplit
    refine ⟨read, unread, eof, by rw [htokens, hsplit], heof, ?_, ?_⟩
    · rw [← String.toList_inj, toList_spelling, ← hpls.spell_eq, ← hunread]
      rfl
    · rw [Parser.rest, List.map_map, ← hfilter, hrest]
      rfl

/-- The first links of a chain are the longest run of links whose word spells its connector. -/
theorem exists_reading_of_chain {config : Config} {connector : Grammar.Connector}
    {first second : Condition} {word : String} {more : List (String × Condition)}
    {spells : String × Condition → Bool} (hinvalid : config.keepInvalidValues = false)
    (hparts : ∀ c ∈ first :: second :: more.map Prod.snd,
      c.isClosed = true ∧ c.IsReadUnder config)
    (hword : connector.Spells word)
    (hwords : ∀ link ∈ more, ∃ connector : Grammar.Connector, connector.Spells link.1)
    (hspells : ∀ link, spells link = true ↔ connector.Spells link.1) (file : Option String) :
    Condition.IsReadUpTo config file
      (first.render ++ Condition.linksText ((word, second) :: more))
      (connector.join (first :: (((word, second) :: more).takeWhile spells).map Prod.snd))
      (((word, second) :: more).dropWhile spells) := by
  have hall : ∀ link ∈ (word, second) :: more,
      ∃ connector : Grammar.Connector, connector.Spells link.1 :=
    List.forall_mem_cons.2 ⟨⟨connector, hword⟩, hwords⟩
  have hfirst : ((word, second) :: more).takeWhile spells ≠ [] := by
    rw [List.takeWhile_cons_of_pos ((hspells (word, second)).2 hword)]
    exact List.cons_ne_nil _ _
  have hdiffers : ∀ link ∈ (((word, second) :: more).dropWhile spells).head?,
      ¬ connector.Spells link.1 := by
    intro link hlink hthis
    have hhead := List.head?_dropWhile_not spells ((word, second) :: more)
    rw [hlink] at hhead
    have hother : spells link = false := hhead
    rw [(hspells link).2 hthis] at hother
    exact Bool.noConfusion hother
  exact exists_reading_of_links List.takeWhile_append_dropWhile hinvalid hparts hfirst
    (fun link hlink => (hspells link).1 (List.mem_takeWhile_imp hlink))
    (fun link hlink => hall link ((List.dropWhile_sublist spells).subset hlink)) hdiffers file

/-- Closed conditions that were read, printed with connectors between them, are read as one flat
chain of the first connector. It takes the longest run of connectors that are the first one up to
the case of letters, with the parts behind them. The parser stops on the connector behind that run,
with all from there on unread. -/
theorem chains_are_cut (config : Config) (connector : Grammar.Connector) (first second : Condition)
    (word : String) (more : List (String × Condition)) (file : Option String)
    (hinvalid : config.keepInvalidValues = false)
    (hparts : ∀ c ∈ first :: second :: more.map Prod.snd,
      c.isClosed = true ∧ c.IsReadUnder config)
    (hword : connector.Spells word)
    (hwords : ∀ link ∈ more, ∃ connector : Grammar.Connector, connector.Spells link.1) :
    let links := (word, second) :: more
    let taken := links.takeWhile fun link => Text.sameLetters link.1 word
    let left := links.dropWhile fun link => Text.sameLetters link.1 word
    Condition.IsReadUpTo config file (first.render ++ Condition.linksText links)
      (connector.join (first :: taken.map Prod.snd)) left := by
  refine exists_reading_of_chain hinvalid hparts hword hwords (fun link => ?_) file
  rw [Grammar.Connector.Spells, Text.sameLetters, Text.sameLetters, beq_iff_eq.1 hword]

/-- A chain of `and` is cut at `Or`, and what is behind that has no say: another `and`, and a part
with a chain of its own. -/
theorem chains_are_cut_at_or :
    let decl name value : Condition := .group (.declaration ⟨name, some ⟨value⟩, false, false⟩)
    let first := decl "a" "b"
    let second : Condition := .negation (.negation (decl "c" "d"))
    let third : Condition := .group (.disjunction [first, decl "or" "and"])
    let more := [("aNd", third), ("Or", first), ("and", third)]
    Condition.IsReadUpTo .strict none
      (first.render ++ Condition.linksText (("AND", second) :: more))
      (.conjunction [first, second, third]) [("Or", first), ("and", third)] := by
  intro decl first second third more
  have hprint (c : Condition)
      (hparse : (Condition.parse (tokenize c.render none) .strict).1 = some c)
      (hslash : ∀ t ∈ tokenize c.render none, t.kind = .delim → t.text ≠ "\\") :
      c.IsReadUnder .strict :=
    ⟨c.render, none, _, scan_eq_tokenize _ _, hslash, Or.inl hparse⟩
  have hfirst : first.isClosed = true ∧ first.IsReadUnder .strict :=
    ⟨rfl, hprint first (by decide +kernel) (by decide +kernel)⟩
  have hsecond : second.isClosed = true ∧ second.IsReadUnder .strict :=
    ⟨rfl, hprint second (by decide +kernel) (by decide +kernel)⟩
  have hthird : third.isClosed = true ∧ third.IsReadUnder .strict :=
    ⟨rfl, hprint third (by decide +kernel) (by decide +kernel)⟩
  have hwords : ∀ link ∈ more, ∃ connector : Grammar.Connector, connector.Spells link.1 := by
    simp only [more, List.forall_mem_cons]
    exact ⟨⟨.and, by decide +kernel⟩, ⟨.or, by decide +kernel⟩, ⟨.and, by decide +kernel⟩,
      List.forall_mem_nil _⟩
  have htaken : ((("AND", second) :: more).takeWhile fun link => Text.sameLetters link.1 "AND") =
      [("AND", second), ("aNd", third)] := by
    decide +kernel
  have hleft : ((("AND", second) :: more).dropWhile fun link => Text.sameLetters link.1 "AND") =
      [("Or", first), ("and", third)] := by
    decide +kernel
  have hread := chains_are_cut .strict .and first second "AND" more none rfl
    (by simp [more, hfirst, hsecond, hthird]) (by decide +kernel) hwords
  simp only [htaken, hleft] at hread
  exact hread

end Cssom
