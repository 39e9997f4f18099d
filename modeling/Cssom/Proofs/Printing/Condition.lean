import Cssom.Condition.Grammar
import Cssom.Proofs.Printing.Declaration

/-!
# Conditions are read back

A declaration goes on up to a token that ends values, so it is the last part of any chain; a
condition in parentheses may stand before anything. `operand_reads_back` is by induction on how
deep conditions may go, and a chain is read back from its parts (`chainOf_reads_back`).
-/

namespace Cssom

namespace Condition

/-- Whether the text of the condition goes on up to a token that ends values. -/
def isOpen : Condition → Bool
  | declaration _ => true
  | negation inner => inner.isOpen
  | _ => false

/-- The texts of conditions are the text of each. -/
theorem renderAll_eq_map (parts : List Condition) : renderAll parts = parts.map render := by
  induction parts with
  | nil => rfl
  | cons part parts ih => rw [renderAll, ih, List.map_cons]

end Condition

namespace Grammar

open Production Token Input

variable {config : Config} {ctx : Context} {i j : Input} {c : Condition} {placed : Prop}

/-- The kinds that a condition starts with. -/
def StartsCondition (k : Kind) : Prop :=
  k = .ident ∨ k = .openParen

/-- The kinds of tokens that may follow a part of a chain. -/
def FollowsOperand (c : Condition) (k : Kind) : Prop :=
  c.isOpen = true → EndsValue parenthesizedEnd k

/-- A part of a chain is read back, given a bound for how deep conditions go. -/
def OperandReadsBack (ctx : Context) (c : Condition) (placed : Prop := True) : Prop :=
  ReadsBack (operandWithin ctx) StartsCondition (FollowsOperand c) (some c) c.render placed

/-- A condition is read back as a chain before a token that ends values. -/
def ChainReadsBack (ctx : Context) (c : Condition) (placed : Prop := True) : Prop :=
  ReadsBack (fun bound => chainOf (operandWithin ctx bound)) StartsCondition
    (EndsValue parenthesizedEnd) (some c) c.render placed

/-- What ends values is no word. -/
theorem not_word_of_endsValue {k : Kind} (h : EndsValue parenthesizedEnd k) : k ≠ .ident := by
  rcases h with rfl | h
  · decide
  · rintro rfl
    exact absurd h (by decide)

/-! ### Parts of chains -/

/-- A condition in parentheses is read back. -/
theorem group_reads_back (h : ChainReadsBack ctx c placed) :
    OperandReadsBack ctx (.group c) placed := by
  obtain ⟨ps, hps⟩ := h
  refine ⟨(.openParen, "(") :: (ps ++ [(.closeParen, ")")]), ?_, ?_, Or.inr rfl, ?_⟩
  · simp [Condition.render, hps.spell]
  · exact .cons_alone alone_openParen (hps.legible.append_mark alone_closeParen rfl)
  · intro bound input tail hahead _ hsize
    have hopen : input.Ahead ((.openParen, "(") :: (ps ++ (.closeParen, ")") :: tail)) placed := by
      simpa using hahead
    have hlt := hopen.size rfl
    obtain ⟨depth, rfl⟩ : ∃ depth, bound = depth + 1 := ⟨bound - 1, by omega⟩
    unfold operandWithin
    apply Gives.inFrame
    apply Gives.view
    rw [hopen.kind, headKind_cons rfl]
    apply Gives.skip
    apply Gives.bind (hps.gives depth _ _ (hopen.advance rfl) (Or.inr rfl) (by omega))
    intro rest _ hrest
    apply Gives.bind (Gives.skipIf rfl hrest)
    intro rest' _ hrest'
    exact .pure hrest'

/-- A condition after `not` is read back. -/
theorem negation_reads_back (h : OperandReadsBack ctx c placed) :
    OperandReadsBack ctx (.negation c) placed := by
  obtain ⟨ps, hps⟩ := h
  refine ⟨(.ident, "not") :: blank :: ps, ?_, legible_not.append_blank hps.legible, Or.inl rfl, ?_⟩
  · simp [Condition.render, hps.spell, blank]
  · intro bound input tail hahead hend hsize
    have hnot : input.Ahead ((.ident, "not") :: blank :: (ps ++ tail)) placed := hahead
    have hinner : input.advance.Ahead (ps ++ tail) placed := (hnot.advance rfl).tail rfl
    have hlt := hnot.size rfl
    obtain ⟨depth, rfl⟩ : ∃ depth, bound = depth + 1 := ⟨bound - 1, by omega⟩
    have hstarts : startsNegation input.view = true := by
      have hnext : input.view.next.kind ≠ .colon := by
        rw [kind_next, hinner.kind, hps.headKind_append]
        rcases hps.starts with hk | hk
        · rw [hk]
          decide
        · rw [hk]
          decide
      rw [startsNegation, isWord_of_ahead hnot, bne_iff_ne.2 hnext, Bool.and_true]
      decide
    unfold operandWithin
    apply Gives.inFrame
    apply Gives.view
    rw [hnot.kind, headKind_cons rfl]
    simp only [hstarts, if_true]
    apply Gives.skip
    apply Gives.bind (hps.gives depth _ _ hinner hend (by omega))
    intro rest _ hrest
    exact .pure hrest

/-- A declaration is read back as a condition. -/
theorem declared_reads_back {spelled : String} {property : Property}
    (hproperty : propertyOf (.ofConfig config) .standard spelled = property)
    (hname : property.name = spelled) (hlegible : Legible [(.ident, spelled)])
    {parsed : ParsedValue} {v : Value} (hvalue : parsed.value = some v)
    (hvalid : parsed.valid = true)
    (hreads : ReadsBack (fun _ => value parenthesizedEnd) (fun _ => True)
      (EndsValue parenthesizedEnd) parsed (declaredText v parsed.important) placed) :
    OperandReadsBack (.ofConfig config)
      (.declaration (property.assign v parsed.important)) placed := by
  obtain ⟨vs, hvs⟩ := hreads
  refine ⟨[(.ident, spelled)] ++ [(.colon, ":")] ++ blank :: vs, ?_,
    (hlegible.append_mark alone_colon rfl).append_blank hvs.legible, Or.inl rfl, ?_⟩
  · rw [Condition.render, render_assign, hname]
    simp [hvs.spell, blank]
  · intro bound input tail hahead hend hsize
    have hident : input.Ahead ((.ident, spelled) :: (.colon, ":") :: blank :: (vs ++ tail))
        placed := by
      simpa using hahead
    have hcolon := hident.advance rfl
    have hlt := hident.size rfl
    obtain ⟨depth, rfl⟩ : ∃ depth, bound = depth + 1 := ⟨bound - 1, by omega⟩
    have hstarts : startsNegation input.view = false := by
      have hnext : input.view.next.kind = .colon := by
        rw [kind_next, hcolon.kind]
        rfl
      rw [startsNegation, hnext]
      exact Bool.and_false _
    have hread := hvs.gives (input.size + 1) _ _ ((hcolon.advance rfl).tail rfl) (hend rfl)
      (Nat.lt_succ_of_le ((Reaches.advance _).trans (Reaches.advance _)).size_le)
    unfold operandWithin
    apply Gives.inFrame
    apply Gives.view
    rw [hident.kind, headKind_cons rfl]
    simp only [hstarts, Bool.false_eq_true, if_false]
    unfold declarationCondition
    apply Gives.take
    apply Gives.kind
    rw [hcolon.kind, headKind_cons rfl, if_neg (by simp)]
    apply Gives.skip
    apply Gives.bind hread
    intro rest _ hrest
    rw [hident.text rfl, hvalue]
    simp only [hvalid, Bool.not_true, Bool.false_and, Bool.false_eq_true, if_false]
    rw [← hproperty]
    exact .pure hrest

/-! ### Chains -/

namespace Connector

/-- The word of a connector. -/
def word : Connector → String
  | .and => "and"
  | .or => "or"

/-- Whether the text is the word of a connector, in letters of any case. -/
def Spells (connector : Connector) (text : String) : Prop :=
  Text.sameLetters text connector.word = true

instance (connector : Connector) (text : String) : Decidable (connector.Spells text) :=
  inferInstanceAs (Decidable (_ = true))

/-- The word of a connector spells it. -/
theorem spells_word (connector : Connector) : connector.Spells connector.word :=
  beq_self_eq_true _

/-- The word of a connector is legible in letters of any case. -/
theorem legible_of_spells {connector : Connector} {text : String} (h : connector.Spells text) :
    Legible [(.ident, text)] := by
  have hlower : text.toList.map Char.toLower = connector.word.toList.map Char.toLower := by
    rw [← Text.toList_lower, ← Text.toList_lower, beq_iff_eq.1 h]
  have hlength : text.toList.length = connector.word.toList.length := by
    rw [← List.length_map Char.toLower, hlower, List.length_map]
  have hword : first connector.word.toList = (.ident, connector.word.toList.length) ∧
      '\\' ∉ connector.word.toList.map Char.toLower ∧
      '(' ∉ connector.word.toList.map Char.toLower := by
    cases connector <;> decide
  have hfirst : first text.toList = (.ident, text.toList.length) := by
    rw [← first_lower, hlower, first_lower, hlength, hword.1]
  refine .of_first hfirst rfl rfl (.of_not_mem fun hmem => ?_) fun ho => ?_
  · exact hword.2.1 (hlower ▸ List.mem_map_of_mem (f := Char.toLower) hmem)
  · exact hword.2.2 (hlower ▸ List.mem_map_of_mem (f := Char.toLower) ho.mem)

/-- A word that spells a connector is read as that connector. -/
theorem ofToken?_of_spells {connector : Connector} {text : String} {tail : List Piece}
    (h : connector.Spells text) (hahead : j.Ahead ((.ident, text) :: tail) placed) :
    ofToken? j.view.token = some connector := by
  cases connector with
  | and =>
    rw [ofToken?, isWord_of_ahead hahead]
    exact if_pos h
  | or =>
    have hand : Text.sameLetters text "and" = false := by
      rw [Text.sameLetters, beq_iff_eq.1 h]
      decide
    rw [ofToken?, isWord_of_ahead hahead, isWord_of_ahead hahead, hand, if_neg (by decide)]
    exact if_pos h

/-- What is no identifier is no connector. -/
theorem ofToken?_of_kind (h : j.view.kind ≠ .ident) : ofToken? j.view.token = none := by
  rw [ofToken?, isWord_of_kind h, isWord_of_kind h, if_neg Bool.false_ne_true,
    if_neg Bool.false_ne_true]

/-- A chain is printed as its parts with its word between them. -/
theorem render_join (connector : Connector) (parts : List Condition) :
    (connector.join parts).render =
      String.intercalate (" " ++ connector.word ++ " ") (parts.map Condition.render) := by
  cases connector <;> rw [join, Condition.render, Condition.renderAll_eq_map] <;> rfl

end Connector

/-- A word between two parts of a chain and the part behind it, as they are printed. -/
def linkPieces (link : String × List Piece) : List Piece :=
  wordSeparator link.1 ++ link.2

/-- Where links are ahead, the word of the first one is next. -/
theorem ahead_word_of_links {link : String × List Piece} {links : List (String × List Piece)}
    {tail : List Piece} (h : j.Ahead ((link :: links).flatMap linkPieces ++ tail) placed) :
    j.Ahead ((.ident, link.1) :: blank :: (link.2 ++ (links.flatMap linkPieces ++ tail)))
      placed := by
  rw [List.flatMap_cons, linkPieces, wordSeparator, List.append_assoc, List.append_assoc] at h
  exact h.tail rfl

/-- The pieces of the parts of a chain behind their words are those of each. -/
abbrev LinksReadAs (ctx : Context) (parts : List Condition) (links : List (String × List Piece))
    (placed : Prop := True) : Prop :=
  List.Forall₂ (fun c link => ReadsAs (operandWithin ctx) StartsCondition (FollowsOperand c)
    (some c) c.render link.2 placed) parts links

/-- Parts of a chain that may stand before a token of some kind: a connector may follow each of them
but the last one. -/
structure MayPrecede (parts : List Condition) (k : Kind) : Prop where
  closed : ∀ c ∈ parts.dropLast, c.isOpen = false
  last : ∀ c ∈ parts.getLast?, FollowsOperand c k

/-- If some parts may precede a token, so may those behind the first. -/
theorem MayPrecede.tail {part : Condition} {parts : List Condition} {k : Kind}
    (h : MayPrecede (part :: parts) k) : MayPrecede parts k := by
  rcases parts with _ | ⟨second, parts⟩
  · exact ⟨List.forall_mem_nil _, fun _ hc => absurd hc (by simp)⟩
  · refine ⟨fun c hc => h.closed c (List.mem_cons_of_mem _ hc), fun c hc => h.last c ?_⟩
    simpa using hc

/-- What follows the first part of a chain may follow it. -/
theorem MayPrecede.head {links : List (String × List Piece)} {parts : List Condition}
    {tail : List Piece} (h : MayPrecede (c :: parts) (headKind tail))
    (hlinks : LinksReadAs ctx parts links placed) :
    FollowsOperand c (headKind (links.flatMap linkPieces ++ tail)) := by
  rcases hlinks with _ | ⟨_, _⟩
  · exact h.last c (by simp)
  · intro hopen
    rw [h.closed c (by simp)] at hopen
    exact absurd hopen (by decide)

/-- Reading on in a chain takes all links that are ahead, and stops where its connector does not
follow. -/
theorem gives_chainFrom {connector : Connector} {parts : List Condition}
    {links : List (String × List Piece)} (h : LinksReadAs ctx parts links placed)
    (hwords : ∀ link ∈ links, connector.Spells link.1) (bound rounds : Nat)
    (before : List Condition) {tail : List Piece}
    (hahead : j.Ahead (links.flatMap linkPieces ++ tail) placed)
    (hparts : MayPrecede parts (headKind tail))
    (hstop : ∀ rest : Input, rest.Ahead tail placed →
      Connector.ofToken? rest.view.token ≠ some connector)
    (hbound : j.size < bound) (hsize : j.size ≤ rounds) :
    (chainFrom (operandWithin ctx bound) connector rounds before).Gives j
      (some (connector.join (before ++ parts))) tail placed := by
  induction h generalizing rounds before j with
  | nil =>
    rw [List.append_nil]
    rcases rounds with _ | rounds
    · exact .pure hahead
    · unfold chainFrom
      apply Gives.view
      rw [if_neg (hstop j hahead)]
      exact .pure hahead
  | @cons c link parts links hps hmore ih =>
    rw [List.forall_mem_cons] at hwords
    have hconnector := ahead_word_of_links hahead
    have hoperand := (hconnector.advance rfl).tail rfl
    have hlt := hconnector.size rfl
    obtain ⟨n, rfl⟩ : ∃ n, rounds = n + 1 := ⟨rounds - 1, by omega⟩
    unfold chainFrom
    apply Gives.view
    rw [if_pos (Connector.ofToken?_of_spells hwords.1 hconnector)]
    apply Gives.skip
    apply Gives.bind (hps.gives bound _ _ hoperand (hparts.head hmore) (by omega))
    intro rest hreach hrest
    have hle := hreach.size_le
    have hnext := ih hwords.2 n (before ++ [c]) hrest hparts.tail (by omega) (by omega)
    simpa using hnext

/-- A part and the links behind it are read as a chain, up to what is no further link. -/
theorem gives_chainOf {connector : Connector} {first : Condition} {ps : List Piece}
    {parts : List Condition} {links : List (String × List Piece)} {bound : Nat} {tail : List Piece}
    (hfirst : ReadsAs (operandWithin ctx) StartsCondition (FollowsOperand first) (some first)
      first.render ps placed)
    (hlinks : LinksReadAs ctx parts links placed) (hne : links ≠ [])
    (hwords : ∀ link ∈ links, connector.Spells link.1)
    (hahead : j.Ahead (ps ++ (links.flatMap linkPieces ++ tail)) placed)
    (hparts : MayPrecede (first :: parts) (headKind tail))
    (hstop : ∀ rest : Input, rest.Ahead tail placed →
      Connector.ofToken? rest.view.token ≠ some connector)
    (hbound : j.size < bound) :
    (chainOf (operandWithin ctx bound)).Gives j (some (connector.join (first :: parts))) tail
      placed := by
  apply Gives.inFrame
  apply Gives.bind (hfirst.gives bound _ _ hahead (hparts.head hlinks) hbound)
  intro rest hreach hrest
  have hle := hreach.size_le
  have hconnector : Connector.ofToken? rest.view.token = some connector := by
    obtain ⟨link, links, rfl⟩ := List.exists_cons_of_ne_nil hne
    exact Connector.ofToken?_of_spells (hwords link List.mem_cons_self)
      (ahead_word_of_links hrest)
  apply Gives.view
  rw [hconnector]
  exact gives_chainFrom hlinks hwords bound rest.view.size [first] hrest hparts.tail hstop
    (by omega) (Nat.le_refl _)

/-- What ends values is no connector. -/
theorem not_connector_of_endsValue {tail : List Piece}
    (h : EndsValue parenthesizedEnd (headKind tail)) (hahead : j.Ahead tail placed) :
    Connector.ofToken? j.view.token = none := by
  apply Connector.ofToken?_of_kind
  rw [hahead.kind]
  exact not_word_of_endsValue h

/-- A part by itself is read back as a chain. -/
theorem chainReadsBack_of_operand (h : OperandReadsBack ctx c placed) :
    ChainReadsBack ctx c placed := by
  obtain ⟨ps, hps⟩ := h
  refine ⟨ps, hps.spell, hps.legible, hps.starts, ?_⟩
  intro bound input tail hahead hend hsize
  apply Gives.inFrame
  apply Gives.bind (hps.gives bound _ _ hahead (fun _ => hend) hsize)
  intro rest _ hrest
  apply Gives.view
  rw [not_connector_of_endsValue hend hrest]
  exact .pure hrest

/-- A chain of two parts or more is read back. -/
theorem join_reads_back {connector : Connector} {parts : List Condition}
    (hlong : 2 ≤ parts.length) (hparts : ∀ c ∈ parts, OperandReadsBack ctx c placed)
    (hclosed : ∀ c ∈ parts.dropLast, c.isOpen = false) :
    ChainReadsBack ctx (connector.join parts) placed := by
  obtain ⟨pss, hpss⟩ := exists_readsAs hparts
  obtain ⟨hlegible, hspell⟩ := legible_of_forall₂ hpss
  rcases hpss with _ | @⟨first, ps, _, _, hps, _ | @⟨second, qs, parts, pss, hqs, hmore⟩⟩
  · exact absurd hlong (by simp)
  · exact absurd hlong (by simp)
  refine ⟨(wordSeparator connector.word).intercalate (ps :: qs :: pss), ?_, ?_, ?_, ?_⟩
  · have hword : spell (wordSeparator connector.word) = (" " ++ connector.word ++ " ").toList := by
      cases connector <;> rfl
    rw [spell_join, hspell, Connector.render_join, String.toList_intercalate, hword]
  · exact legible_join (separates_word (Connector.legible_of_spells connector.spells_word)) hlegible
      (List.cons_ne_nil _ _)
  · rw [join_cons, hps.headKind_append]
    exact hps.starts
  · intro bound input tail hahead hend hsize
    have hlinks : LinksReadAs ctx (second :: parts) ((qs :: pss).map (connector.word, ·)) placed :=
      List.forall₂_map_right_iff.2 (.cons hqs hmore)
    refine gives_chainOf hps hlinks (by simp) ?_ ?_ ⟨hclosed, fun _ _ _ => hend⟩ ?_ hsize
    · intro link hlink
      obtain ⟨_, _, rfl⟩ := List.mem_map.1 hlink
      exact connector.spells_word
    · rw [join_cons, List.append_assoc] at hahead
      rwa [List.flatMap_map]
    · intro rest hrest
      rw [not_connector_of_endsValue hend hrest]
      simp

/-! ### Reading conditions -/

/-- What is read as a part of a chain is read back, and may be followed by what follows it. -/
def OperandsReadBack (ctx : Context) (depth : Nat) (placed : Prop := True) : Prop :=
  ∀ i : Input, Regular i.pieces → (operandWithin ctx depth).Yields i fun result rest => ∀ c,
    result = some c → OperandReadsBack ctx c placed ∧ FollowsOperand c rest.view.kind

/-- A declaration that is read as a condition is read back, and stops where one may. -/
theorem declarationCondition_reads_back (hconfig : config.keepInvalidValues = false)
    (hregular : Regular i.pieces) (hident : i.view.kind = .ident) :
    (declarationCondition (.ofConfig config)).Yields i fun result rest => ∀ c, result = some c →
      OperandReadsBack (.ofConfig config) c placed ∧ FollowsOperand c rest.view.kind := by
  have hadvance := (Reaches.advance i).regular hregular
  have hwords := legible_word hregular hident
  unfold declarationCondition
  apply Yields.take
  apply Yields.kind
  split
  · exact .none
  apply Yields.skip
  apply Yields.bind (value_reads_back (List.Subset.refl _)
    ((Reaches.advance i.advance).regular hadvance))
  intro parsed rest _ hparsed
  rcases hvalue : parsed.value with _ | v
  · exact .none
  simp only [Context.ofConfig, hconfig, Bool.not_false, Bool.and_true]
  split
  · exact .none
  next hvalid =>
  have hvalid : parsed.valid = true := by simpa using hvalid
  obtain ⟨hend, v', hv', hreads⟩ := hparsed hvalid
  have hsame : v' = v := Option.some.inj (hv'.symm.trans hvalue)
  rw [hsame] at hreads
  obtain ⟨hspelled, hagain⟩ := propertyOf_name config .standard i.view.token.text
  have hlegible : Legible [(.ident,
      (propertyOf (.ofConfig config) .standard i.view.token.text).name)] := by
    rcases hspelled with hname | hname
    · rw [hname]
      exact hwords.1
    · rw [hname]
      exact hwords.2
  apply Yields.some
  exact ⟨declared_reads_back hagain rfl hlegible hvalue hvalid hreads, fun _ => hend⟩

/-- A connector is an identifier. -/
theorem kind_of_connector {connector : Connector}
    (h : Connector.ofToken? i.view.token = some connector) : i.view.kind = .ident := by
  by_contra hkind
  rw [Connector.ofToken?_of_kind hkind] at h
  exact absurd h (by simp)

/-- What a connector follows is closed. -/
theorem closed_of_connector {connector : Connector} (hfollows : FollowsOperand c i.view.kind)
    (h : Connector.ofToken? i.view.token = some connector) : c.isOpen = false := by
  rw [Bool.eq_false_iff]
  intro hopen
  exact not_word_of_endsValue (hfollows hopen) (kind_of_connector h)

/-- A chain is read back as it goes on, if its parts are. -/
theorem chainFrom_reads_back {depth : Nat} (hoperand : OperandsReadBack ctx depth placed)
    {connector : Connector} (rounds : Nat) {before : List Condition} {last : Condition}
    (hregular : Regular i.pieces) (hparts : ∀ c ∈ before ++ [last], OperandReadsBack ctx c placed)
    (hclosed : ∀ c ∈ before, c.isOpen = false) (hlast : FollowsOperand last i.view.kind)
    (hlong : before ≠ [] ∨ 0 < rounds ∧ Connector.ofToken? i.view.token = some connector) :
    (chainFrom (operandWithin ctx depth) connector rounds (before ++ [last])).Yields i
      fun result _ => ∀ c, result = some c → ChainReadsBack ctx c placed := by
  have hjoin : before ≠ [] → ChainReadsBack ctx (connector.join (before ++ [last])) placed := by
    intro hne
    apply join_reads_back _ hparts
    · rw [List.dropLast_concat]
      exact hclosed
    · have hpos := List.length_pos_iff.2 hne
      rw [List.length_append, List.length_singleton]
      omega
  induction rounds generalizing before last i with
  | zero =>
    apply Yields.some
    exact hjoin (hlong.resolve_right fun h => absurd h.1 (by simp))
  | succ rounds ih =>
    unfold chainFrom
    apply Yields.view
    split
    · next hconnector =>
      have hadvance := (Reaches.advance i).regular hregular
      apply Yields.skip
      apply Yields.bind (hoperand _ hadvance)
      intro parsed rest hreach hparsed
      rcases parsed with _ | part
      · exact .none
      obtain ⟨hpart, hfollows⟩ := hparsed part rfl
      have hne : before ++ [last] ≠ [] :=
        List.append_ne_nil_of_right_ne_nil _ (List.cons_ne_nil _ _)
      have hall : ∀ c ∈ before ++ [last] ++ [part], OperandReadsBack ctx c placed := by
        intro c hc
        rcases List.mem_append.1 hc with hc | hc
        · exact hparts c hc
        · rw [List.mem_singleton.1 hc]
          exact hpart
      have hshut : ∀ c ∈ before ++ [last], c.isOpen = false := by
        intro c hc
        rcases List.mem_append.1 hc with hc | hc
        · exact hclosed c hc
        · rw [List.mem_singleton.1 hc]
          exact closed_of_connector hlast hconnector
      apply ih (hreach.regular hadvance) hall hshut hfollows (Or.inl hne)
      intro _
      apply join_reads_back _ hall
      · rw [List.dropLast_concat]
        exact hshut
      · simp
    · next hnone =>
      apply Yields.some
      exact hjoin (hlong.resolve_right fun h => hnone h.2)

/-- A chain that was read is read back from its print. -/
theorem chainOf_reads_back {depth : Nat} (hoperand : OperandsReadBack ctx depth placed)
    (hregular : Regular i.pieces) : (chainOf (operandWithin ctx depth)).Yields i
      fun result _ => ∀ c, result = some c → ChainReadsBack ctx c placed := by
  unfold chainOf
  apply Yields.inFrame
  apply Yields.bind (hoperand i hregular)
  intro parsed rest hreach hparsed
  rcases parsed with _ | first
  · exact .none
  obtain ⟨hfirst, hfollows⟩ := hparsed first rfl
  apply Yields.view
  rcases hconnector : Connector.ofToken? rest.view.token with _ | connector
  · exact .some (chainReadsBack_of_operand hfirst)
  · have hsize : 0 < rest.view.size := by
      rcases rest.faces_cases with ⟨_, hkind, _⟩ | ⟨_, _, _, _, _, _, hfaces⟩
      · rw [kind_of_connector hconnector] at hkind
        exact absurd hkind (by decide)
      · have hlt := hfaces.size
        show 0 < rest.size
        omega
    refine chainFrom_reads_back hoperand rest.view.size (hreach.regular hregular) ?_
      (List.forall_mem_nil _) hfollows (Or.inr ⟨hsize, hconnector⟩)
    intro c hc
    rw [List.mem_singleton.1 hc]
    exact hfirst

/-- A part of a chain that was read is read back from its print. -/
theorem operand_reads_back (hconfig : config.keepInvalidValues = false) (depth : Nat) :
    OperandsReadBack (.ofConfig config) depth placed := by
  induction depth with
  | zero =>
    intro i _
    exact .none
  | succ depth ih =>
    intro i hregular
    have hadvance := (Reaches.advance i).regular hregular
    unfold operandWithin
    apply Yields.inFrame
    apply Yields.view
    split
    · apply Yields.skip
      apply Yields.bind (chainOf_reads_back ih hadvance)
      intro parsed rest _ hparsed
      rcases parsed with _ | inner
      · exact .none
      apply Yields.bind_any
      intro _ rest' _
      apply Yields.some
      exact ⟨group_reads_back (hparsed inner rfl),
        fun hopen => absurd hopen (by simp [Condition.isOpen])⟩
    · next hident =>
      split
      · apply Yields.skip
        apply Yields.bind (ih _ hadvance)
        intro parsed rest _ hparsed
        rcases parsed with _ | inner
        · exact .none
        obtain ⟨hinner, hfollows⟩ := hparsed inner rfl
        apply Yields.some
        exact ⟨negation_reads_back hinner, hfollows⟩
      · exact declarationCondition_reads_back hconfig hregular hident
    · exact .none

end Grammar

end Cssom
