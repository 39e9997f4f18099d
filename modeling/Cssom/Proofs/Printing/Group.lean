import Cssom.Proofs.Printing.Condition
import Cssom.Proofs.Printing.Declaration
import Cssom.Proofs.Printing.Lists
import Cssom.Proofs.Printing.Statement

/-!
# Grouping rules are read back

Where rules of some depth are read back, so are rules that hold them: those for media
(`mediaBody_reads_back`), for what is supported (`supportsBody_reads_back`) and for documents
(`documentBody_reads_back`). What stands before the block of a group is read back before its brace.
-/

namespace Cssom.Grammar

open Production Token Input

variable {config : Config} {ctx : Context} {i j : Input} {placed : Prop}

/-! ### What stands before a block -/

section

variable {α : Type}

/-- What is printed before a block, with the blank behind it, is read back before the brace. -/
structure PreludePrints (q : Production α) (a : α) (text : String) (ps : List Piece) : Prop where
  spell : spell ps = text.toList
  legible : ∀ qs, Legible qs → Legible (ps ++ qs)
  gives : ∀ (j : Input) tail, j.Ahead (ps ++ tail) → headKind tail = .openCurly → q.Gives j a tail

/-- Nothing is printed where nothing is read before a brace. -/
theorem PreludePrints.nothing {q : Production α} {a : α}
    (h : ∀ j : Input, j.view.kind = .openCurly → q.read j = ⟨a, j, []⟩) :
    PreludePrints q a "" [] where
  spell := rfl
  legible _ hqs := hqs
  gives j tail hahead htail := by
    have hahead : j.Ahead tail := hahead
    exact .of_read (h j (by rw [hahead.kind, htail])) hahead

/-- What is read back before a brace may stand before a block. -/
theorem PreludePrints.of_readsAs {q : Production α} {p : Nat → Production α}
    {starts follows : Kind → Prop} {a : α} {text : String} {ps : List Piece}
    (h : ReadsAs p starts follows a text ps) (hfollows : follows .openCurly)
    (hread : ∀ j : Input, starts j.view.kind → q.read j = (p (j.size + 1)).read j) :
    PreludePrints q a (text ++ " ") (ps ++ [blank]) where
  spell := by rw [spell_append, h.spell, String.toList_append]; rfl
  legible qs hqs := by
    have hblank := h.legible.append_blank hqs
    rwa [List.append_assoc]
  gives j tail hahead htail := by
    rw [List.append_assoc] at hahead
    have hstarts : starts j.view.kind := by
      rw [hahead.kind, h.headKind_append]
      exact h.starts
    have hopen : follows (headKind ([blank] ++ tail)) := by
      rw [headKind_append (areTrivia_singleton rfl), htail]
      exact hfollows
    have hgives := (h.gives (j.size + 1) j _ hahead hopen (Nat.lt_succ_self _)).congr
      (hread j hstarts)
    exact hgives.of_append (areTrivia_singleton rfl)

end

/-! ### Blocks of rules -/

/-- A rule is read back before any token, given a bound for the tokens ahead. -/
def RuleReadsBack (p : Nat → Production (Option Rule)) (r : Rule) (placed : Prop := True) : Prop :=
  ReadsBack p (endsItems · = false) (fun _ => True) (some r) r.render placed

/-- Whatever rule is read from a plain source is such a rule. -/
def Offers (P : Rule → Prop) (rule : Production (Option Rule)) : Prop :=
  ∀ i : Input, Plain i.pieces → rule.Yields i fun result _ => ∀ r, result = some r → P r

/-- Wherever a token is left, one is taken, given a bound that is not zero. -/
def Advancing (p : Nat → Production (Option Rule)) : Prop :=
  ∀ depth (s : Parser), s.hasTokens = true → (p (depth + 1)).Advances s

/-- Rules take a token, to whatever depth they may go. -/
theorem advancing_ruleWithin (ctx : Context) : Advancing (ruleWithin ctx) :=
  fun depth _ hs => advances_ruleWithin depth hs

/-- Rules and the pieces that each of them is printed in. -/
def RulesPrint (p : Nat → Production (Option Rule)) (rules : List Rule) (pss : List (List Piece))
    (placed : Prop := True) : Prop :=
  List.Forall₂
    (fun r ps => ReadsAs p (endsItems · = false) (fun _ => True) (some r) r.render ps placed)
    rules pss

section

variable {p : Nat → Production (Option Rule)}

/-- Rules that are read back are printed in some pieces. -/
theorem exists_rulesPrint {rules : List Rule} (h : ∀ r ∈ rules, RuleReadsBack p r placed) :
    ∃ pss, RulesPrint p rules pss placed :=
  exists_readsAs h

namespace RulesPrint

variable {rules : List Rule} {pss : List (List Piece)} {depth : Nat} {tail : List Piece}

/-- The pieces of rules in braces are legible. -/
theorem legible (h : RulesPrint p rules pss placed) : Legible (bracedPieces pss) :=
  legible_braced (legible_of_forall₂ h).1

/-- The pieces of rules in braces spell the rules as they are printed. -/
theorem spell (h : RulesPrint p rules pss placed) :
    spell (bracedPieces pss) = (Rule.braced (Rule.renderAll rules)).toList := by
  rw [Rule.renderAll_eq_map]
  exact spell_braced (legible_of_forall₂ h).2

/-- The rules of a block are read behind its opening brace. -/
theorem gives_rulesOf (h : RulesPrint p rules pss placed) (hplaced : rules ≠ [] → placed)
    (hp : Advancing p)
    (hahead : j.Ahead (pss.flatMap (blank :: ·) ++ blank :: (.closeCurly, "\x7d") :: tail) placed)
    (hdepth : j.size < depth) :
    (rulesOf (p depth)).Gives j rules ((.closeCurly, "\x7d") :: tail) placed := by
  obtain ⟨n, rfl⟩ : ∃ n, depth = n + 1 := ⟨depth - 1, by omega⟩
  have hitems := gives_blockItems (fun _ hk => hk) (hp n) h hplaced hahead hdepth
  rw [← rulesFrom_eq] at hitems
  exact .view hitems

/-- A block of rules that is ahead is read as those rules. -/
theorem gives_ruleBlock (h : RulesPrint p rules pss placed) (hplaced : rules ≠ [] → placed)
    (hp : Advancing p) (hahead : j.Ahead (bracedPieces pss ++ tail) placed)
    (hdepth : j.size < depth) : (ruleBlock (p depth)).Gives j (some rules) tail placed := by
  rw [bracedPieces, List.cons_append, List.append_assoc] at hahead
  unfold ruleBlock
  apply Gives.bind (gives_blockOpening hahead)
  intro rest hreach hrest
  have hle := hreach.size_le
  rw [if_pos rfl]
  apply Gives.bind (h.gives_rulesOf hplaced hp hrest (by omega))
  intro rest' _ hrest'
  apply Gives.bind (Gives.skipIf rfl hrest')
  intro rest'' _ hrest''
  exact .pure hrest''

end RulesPrint

end

section

variable {P : Rule → Prop} {rule : Production (Option Rule)}

/-- The rules of a block are such as are read from a plain source. -/
theorem rulesOf_yields (hrule : Offers P rule) (hplain : Plain i.pieces) :
    (rulesOf rule).Yields i fun rules _ => ∀ r ∈ rules, P r := by
  unfold rulesOf
  apply Yields.view
  rw [rulesFrom_eq]
  exact itemsFrom_yields hrule _ hplain (List.forall_mem_nil _)

/-- The rules of a block with its braces are such as are read from a plain source. -/
theorem ruleBlock_yields (hrule : Offers P rule) (hplain : Plain i.pieces) :
    (ruleBlock rule).Yields i fun result _ => ∀ rules, result = some rules → ∀ r ∈ rules, P r := by
  unfold ruleBlock
  apply Yields.bind_any
  intro opened rest hreach
  split
  · apply Yields.bind (rulesOf_yields hrule (hreach.plain hplain))
    intro rules rest' _ hrules
    apply Yields.bind_any
    intro _ rest'' _
    exact .some hrules
  · exact .none

end

/-! ### Media -/

/-- What is printed of media before a block. -/
def mediaPrefix (list : MediaList) : String :=
  if list.isEmpty then "" else list.render ++ " "

/-- The media before a block are read back before its brace. -/
theorem mediaPrelude_yields (hplain : Plain i.pieces) :
    (mediaPrelude (.ofConfig config)).Yields i fun list _ =>
      ∃ ps, PreludePrints (mediaPrelude (.ofConfig config)) list (mediaPrefix list) ps := by
  unfold mediaPrelude
  apply Yields.kind
  split
  · refine .pure ⟨[], PreludePrints.nothing fun j hj => ?_⟩
    rw [read_bind, read_kind]
    simp only [hj, if_true]
    rfl
  · refine (mediaList_reads_back True hplain.regular (by simp) (by simp)).mono fun list _ h => ?_
    obtain ⟨hne, ms, hms⟩ := h
    rw [mediaPrefix, hne, if_neg Bool.false_ne_true]
    refine ⟨_, .of_readsAs hms rfl fun j hj => ?_⟩
    have hopen : j.view.kind ≠ .openCurly := by
      rcases hj with hj | hj <;> rw [hj] <;> simp
    rw [read_bind, read_kind]
    simp only [hopen, if_false]
    rfl

/-- A rule for media holds such rules as are read from a plain source. -/
theorem mediaBlock_yields {P : Rule → Prop} {rule : Production (Option Rule)}
    (hrule : Offers P rule) (hplain : Plain i.pieces) (list : MediaList) :
    (mediaBlock rule list).Yields i fun result _ => ∀ r, result = some r →
      ∃ rules, r = .media list rules ∧ ∀ r' ∈ rules, P r' := by
  unfold mediaBlock
  apply Yields.view
  split
  · apply Yields.skip
    apply Yields.bind (rulesOf_yields hrule ((Reaches.advance i).plain hplain))
    intro rules rest _ hrules
    apply Yields.bind_any
    intro _ rest' _
    apply Yields.some
    exact ⟨rules, rfl, hrules⟩
  · apply Yields.bind_any
    intro _ rest _
    apply Yields.skip
    exact .none
  · apply Yields.bind_any
    intro _ rest _
    apply Yields.some
    exact ⟨[], rfl, List.forall_mem_nil _⟩

/-- A block of rules that is ahead is read as that of a rule for media. -/
theorem RulesPrint.gives_mediaBlock {p : Nat → Production (Option Rule)} {rules : List Rule}
    {pss : List (List Piece)} {depth : Nat} {tail : List Piece} (h : RulesPrint p rules pss)
    (hp : Advancing p) (list : MediaList) (hahead : j.Ahead (bracedPieces pss ++ tail))
    (hdepth : j.size < depth) :
    (mediaBlock (p depth) list).Gives j (some (.media list rules)) tail := by
  rw [bracedPieces, List.cons_append, List.append_assoc] at hahead
  have hsize := hahead.size rfl
  unfold mediaBlock
  apply Gives.view
  rw [hahead.kind, headKind_cons rfl]
  apply Gives.skip
  apply Gives.bind (h.gives_rulesOf (fun _ => trivial) hp (hahead.advance rfl) (by omega))
  intro rest _ hrest
  apply Gives.bind (Gives.skipIf rfl hrest)
  intro rest' _ hrest'
  exact .pure hrest'

/-- What stands before the block of a rule for media is read back. -/
def MediaPrints (config : Config) (list : MediaList) : Prop :=
  ∃ ps, PreludePrints (mediaPrelude (.ofConfig config)) list (mediaPrefix list) ps

/-- The text of a rule for media, behind its at-keyword. -/
def mediaText (list : MediaList) (rules : List Rule) : String :=
  mediaPrefix list ++ Rule.braced (Rule.renderAll rules)

/-- A rule for media that was read has media that are read back, and rules that were read. -/
theorem mediaRule_yields {P : Rule → Prop} {rule : Production (Option Rule)}
    (hrule : Offers P rule) (hplain : Plain i.pieces) :
    (mediaRule (.ofConfig config) rule).Yields i fun result _ => ∀ r, result = some r →
      ∃ list rules, r = .media list rules ∧ MediaPrints config list ∧ ∀ r' ∈ rules, P r' := by
  unfold mediaRule
  apply Yields.bind (mediaPrelude_yields hplain)
  intro list rest hreach hlist
  refine (mediaBlock_yields hrule (hreach.plain hplain) list).mono fun result _ h r hr => ?_
  obtain ⟨rules, rfl, hrules⟩ := h r hr
  exact ⟨list, rules, rfl, hlist, hrules⟩

/-- Where its media and its rules are, a rule for media is read back behind its at-keyword. -/
theorem mediaBody_reads_back {p : Nat → Production (Option Rule)} (hp : Advancing p)
    {list : MediaList} (hlist : MediaPrints config list) {rules : List Rule}
    (hrules : ∀ r ∈ rules, RuleReadsBack p r) :
    BodyReadsBack (fun bound => mediaRule (.ofConfig config) (p bound)) (.media list rules)
      (mediaText list rules) := by
  obtain ⟨ms, hms⟩ := hlist
  obtain ⟨pss, hpss⟩ := exists_rulesPrint hrules
  refine ⟨ms ++ bracedPieces pss, ?_, hms.legible _ hpss.legible, trivial, ?_⟩
  · rw [spell_append, hms.spell, hpss.spell, mediaText, String.toList_append]
  · intro bound input tail hahead _ hsize
    rw [List.append_assoc] at hahead
    apply Gives.bind (hms.gives input _ hahead rfl)
    intro rest hreach hrest
    have hle := hreach.size_le
    exact hpss.gives_mediaBlock hp list hrest (by omega)

/-! ### Conditions -/

/-- What is printed of a condition before a block. -/
def conditionPrefix (condition : Condition) : String :=
  if condition.isEmpty then "" else condition.render ++ " "

/-- No chain is the empty condition. -/
theorem isEmpty_of_chainReadsBack {condition : Condition} (h : ChainReadsBack ctx condition) :
    condition.isEmpty = false := by
  rcases condition with _ | _ | _ | _ | _ | _ <;> try rfl
  obtain ⟨ps, hps⟩ := h
  exact absurd hps.spell hps.legible.spell_ne_nil

/-- What stands before the block of a rule with a condition is read back. -/
def ConditionPrints (config : Config) (condition : Condition) : Prop :=
  ∃ ps, PreludePrints (supportsCondition (.ofConfig config)) (some condition)
    (conditionPrefix condition) ps

/-- The condition before a block is read back before its brace. -/
theorem supportsCondition_yields (hconfig : config.keepInvalidValues = false)
    (hplain : Plain i.pieces) : (supportsCondition (.ofConfig config)).Yields i fun result _ =>
      ∀ condition, result = some condition → ConditionPrints config condition := by
  unfold supportsCondition
  apply Yields.kind
  split
  · apply Yields.some
    refine ⟨[], PreludePrints.nothing fun j hj => ?_⟩
    rw [supportsCondition, read_bind, read_kind]
    simp only [hj, if_true]
    rfl
  · apply Yields.view
    have hoperands : OperandsReadBack (.ofConfig config) (i.view.size + 1) :=
      operand_reads_back hconfig _
    refine (chainOf_reads_back hoperands hplain.regular).mono ?_
    intro result _ h condition hcondition
    have hchain := h condition hcondition
    rw [ConditionPrints, conditionPrefix, isEmpty_of_chainReadsBack hchain,
      if_neg Bool.false_ne_true]
    obtain ⟨cs, hcs⟩ := hchain
    refine ⟨_, .of_readsAs hcs (Or.inr (by decide)) fun j hj => ?_⟩
    have hopen : j.view.kind ≠ .openCurly := by
      rcases hj with hj | hj <;> rw [hj] <;> simp
    rw [supportsCondition, read_bind, read_kind]
    simp only [hopen, if_false]
    rfl

/-- The text of a rule with a condition, behind its at-keyword and the blanks after that. -/
def supportsText (condition : Condition) (rules : List Rule) : String :=
  conditionPrefix condition ++ Rule.braced (Rule.renderAll rules)

/-- A rule with a condition that was read has a condition that is read back, and rules that were
read. -/
theorem supportsRule_yields (hconfig : config.keepInvalidValues = false) {P : Rule → Prop}
    {rule : Production (Option Rule)} (hrule : Offers P rule) (hplain : Plain i.pieces) :
    (supportsRule (.ofConfig config) rule).Yields i fun result _ => ∀ r, result = some r →
      ∃ condition rules, r = .supports condition rules ∧ ConditionPrints config condition ∧
        ∀ r' ∈ rules, P r' := by
  unfold supportsRule
  apply Yields.bind (supportsCondition_yields hconfig hplain)
  intro parsed rest hreach hparsed
  rcases parsed with _ | condition
  · exact .abandons
  apply Yields.bind (ruleBlock_yields hrule (hreach.plain hplain))
  intro block rest' _ hblock
  rcases block with _ | rules
  · exact .none
  exact .some ⟨condition, rules, rfl, hparsed condition rfl, hblock rules rfl⟩

/-- Where its condition and its rules are, a rule with a condition is read back behind its
at-keyword. -/
theorem supportsBody_reads_back {p : Nat → Production (Option Rule)} (hp : Advancing p)
    {condition : Condition} (hcondition : ConditionPrints config condition) {rules : List Rule}
    (hrules : ∀ r ∈ rules, RuleReadsBack p r) :
    BodyReadsBack (fun bound => supportsRule (.ofConfig config) (p bound))
      (.supports condition rules) (supportsText condition rules) := by
  obtain ⟨cs, hcs⟩ := hcondition
  obtain ⟨pss, hpss⟩ := exists_rulesPrint hrules
  refine ⟨cs ++ bracedPieces pss, ?_, hcs.legible _ hpss.legible, trivial, ?_⟩
  · rw [spell_append, hcs.spell, hpss.spell, supportsText, String.toList_append]
  · intro bound input tail hahead _ hsize
    rw [List.append_assoc] at hahead
    apply Gives.bind (hcs.gives input _ hahead rfl)
    intro rest hreach hrest
    have hle := hreach.size_le
    apply Gives.bind (hpss.gives_ruleBlock (fun _ => trivial) hp hrest (by omega))
    intro rest' _ hrest'
    exact .pure hrest'

/-! ### Documents -/

/-- A function that names documents is read back before any token. -/
def FunctionReadsBack (function : DocumentFunction) (placed : Prop := True) : Prop :=
  ReadsBack (fun _ => documentFunction) (· = .function) (fun _ => True) (some function)
    function.render placed

/-- A function whose argument is on one line is read back. -/
theorem functionReadsBack_of_oneLine {function : DocumentFunction}
    (h : OneLine function.argument) : FunctionReadsBack function placed := by
  obtain ⟨kind, s⟩ := function
  refine ⟨quotedPieces kind s, spell_quoted kind s, legible_quoted kind h, rfl, ?_⟩
  intro _ input tail hahead _ _
  have hahead : input.Ahead ((.function, kind.name ++ "(") :: (.string, Text.stringLiteral s) ::
      (.closeParen, ")") :: tail) placed := hahead
  have hstring := hahead.advance rfl
  have hclose := hstring.advance rfl
  have hname := name_documentFunction kind hahead.kind (hahead.text rfl)
  have hcontents := contents_stringLiteral hstring.kind (hstring.text rfl)
  have hkind : DocumentFunction.Kind.ofName? kind.name = some kind := by
    cases kind <;> rfl
  unfold documentFunction
  apply Gives.view
  rw [hahead.kind, headKind_cons rfl]
  apply Gives.skip
  rw [hname, hkind]
  unfold documentArgument
  apply Gives.view
  rw [hstring.kind, headKind_cons rfl, if_pos rfl]
  have htake : take.Gives input.advance input.advance.view.token ((.closeParen, ")") :: tail)
      placed := .of_read (read_take _) hclose
  apply Gives.bind ((htake.map (g := Token.contents)).map (g := some))
  intro rest _ hrest
  apply Gives.kind
  rw [hrest.kind, headKind_cons rfl, hcontents]
  apply Gives.skip
  exact .pure (hrest.advance rfl)

/-- The argument of a function that is read from a plain source is on one line. -/
theorem documentArgument_oneLine (kind? : Option DocumentFunction.Kind) (hplain : Plain i.pieces) :
    (documentArgument kind?).Yields i fun result _ => ∀ function, result = some function →
      OneLine function.argument := by
  have hstring : documentString.Yields i fun argument _ => ∀ s, argument = some s → OneLine s := by
    unfold documentString
    apply Yields.view
    split
    · next hkind =>
      have hsource := plain_of_kind hplain hkind rfl
      apply Yields.map
      apply Yields.map
      intro s hs
      rw [← Option.some.inj hs]
      exact oneLine_contents hsource hkind
    · exact .none
  rw [documentArgument_eq]
  apply Yields.bind hstring
  intro argument rest _ hargument
  unfold documentArgumentEnd
  apply Yields.kind
  split
  · apply Yields.skip
    apply Yields.some
    exact hargument _ rfl
  · exact Yields.bind_any fun _ _ _ => .none

/-- A function that was read is read back from its print. -/
theorem documentFunction_reads_back (hplain : Plain i.pieces) :
    documentFunction.Yields i fun result _ => ∀ function, result = some function →
      FunctionReadsBack function := by
  unfold documentFunction
  apply Yields.view
  split
  · next hkind =>
    have hsource := plain_of_kind hplain hkind rfl
    apply Yields.skip
    apply Yields.some
    exact functionReadsBack_of_oneLine (oneLine_address hsource hkind)
  · apply Yields.skip
    refine (documentArgument_oneLine _ ((Reaches.advance i).plain hplain)).mono ?_
    intro result _ h function hfunction
    exact functionReadsBack_of_oneLine (h function hfunction)
  · exact .none

/-- The text of a rule for documents, behind its at-keyword. -/
def documentText (functions : List DocumentFunction) (rules : List Rule) : String :=
  String.intercalate ", " (functions.map DocumentFunction.render) ++ " " ++
    Rule.braced (Rule.renderAll rules)

/-- Functions that name documents, of which there is one at least, each of which is read back. -/
def FunctionsPrint (functions : List DocumentFunction) (placed : Prop := True) : Prop :=
  functions ≠ [] ∧ ∀ function ∈ functions, FunctionReadsBack function placed

/-- A rule for documents that was read has functions that are read back, and rules that were
read. -/
theorem documentRule_yields {P : Rule → Prop} {rule : Production (Option Rule)}
    (hrule : Offers P rule) (hplain : Plain i.pieces) :
    (documentRule rule).Yields i fun result _ => ∀ r, result = some r →
      ∃ functions rules, r = .document functions rules ∧ FunctionsPrint functions ∧
        ∀ r' ∈ rules, P r' := by
  unfold documentRule
  apply Yields.view
  rw [documentFunctionsFrom_eq]
  apply Yields.bind (separatedFrom_yields (fun _ _ => Reaches.plain)
    (fun _ => documentFunction_reads_back) _ hplain (List.forall_mem_nil _))
  intro parsed rest hreach hparsed
  rcases parsed with _ | functions
  · exact .abandons
  obtain ⟨hfunctions, hne⟩ := hparsed functions rfl
  apply Yields.bind (ruleBlock_yields hrule (hreach.plain hplain))
  intro block rest' _ hblock
  rcases block with _ | rules
  · exact .none
  exact .some ⟨functions, rules, rfl, ⟨hne (Or.inl (Nat.succ_pos _)), hfunctions⟩, hblock rules rfl⟩

/-- Where its functions and its rules are, a rule for documents is read back behind its
at-keyword. -/
theorem documentBody_reads_back {p : Nat → Production (Option Rule)} (hp : Advancing p)
    {functions : List DocumentFunction} (hfunctions : FunctionsPrint functions placed)
    {rules : List Rule} (hrules : ∀ r ∈ rules, RuleReadsBack p r placed)
    (hplaced : rules ≠ [] → placed) :
    BodyReadsBack (fun bound => documentRule (p bound)) (.document functions rules)
      (documentText functions rules) placed := by
  obtain ⟨hne, hfunctions⟩ := hfunctions
  obtain ⟨fss, hfss⟩ := exists_readsAs hfunctions
  obtain ⟨hlegible, hspell⟩ := legible_of_forall₂ hfss
  have hnil : fss ≠ [] := by
    rintro rfl
    rcases hfss with _ | _
    exact hne rfl
  obtain ⟨pss, hpss⟩ := exists_rulesPrint hrules
  refine ⟨commaSeparator.intercalate fss ++ blank :: bracedPieces pss, ?_,
    (legible_join separates_comma hlegible hnil).append_blank hpss.legible, trivial, ?_⟩
  · rw [spell_append, spell_join, hspell, spell_cons, hpss.spell, documentText]
    rw [String.toList_append, String.toList_append, String.toList_intercalate, List.append_assoc]
    rfl
  · intro bound input tail hahead _ hsize
    rw [List.append_assoc] at hahead
    have hbrace : headKind (blank :: bracedPieces pss ++ tail) ≠ .comma := by
      rw [show headKind (blank :: bracedPieces pss ++ tail) = .openCurly from rfl]
      simp
    have hread := gives_separatedFrom trivial hfss hne (input.view.size + 1) [] hahead trivial
      hbrace (Nat.lt_succ_self _)
    apply Gives.view
    rw [documentFunctionsFrom_eq]
    apply Gives.bind hread
    intro rest hreach hrest
    have hle := hreach.size_le
    apply Gives.bind (hpss.gives_ruleBlock hplaced hp (hrest.tail rfl) (by omega))
    intro rest' _ hrest'
    exact .pure hrest'

end Cssom.Grammar
